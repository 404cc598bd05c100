import Stencil.Json.Number

namespace Stencil.Json

/-- A token of a JSON text. -/
inductive Token where
  | openArray
  | closeArray
  | openMap
  | closeMap
  | comma
  | colon
  | string (s : Text)
  | atom (v : Value)
deriving Repr

/-- The value of a hexadecimal digit of any case. -/
def hexValue? (c : Char) : Option Nat :=
  if c.isDigit then some (c.toNat - 48)
  else if 97 ≤ c.toNat ∧ c.toNat ≤ 102 then some (c.toNat - 87)
  else if 65 ≤ c.toNat ∧ c.toNat ≤ 70 then some (c.toNat - 55)
  else none

def hex4? (s : Text) : Option (Nat × Text) :=
  match s with
  | a :: b :: c :: d :: rest => do
    return (((← hexValue? a) * 4096 + (← hexValue? b) * 256 + (← hexValue? c) * 16
      + (← hexValue? d)), rest)
  | _ => none

/-- Reads a character given by its number after `\u`. Characters beyond the first 65536 are given by
two numbers. -/
def unicode? (s : Text) : Option (Char × Text) := do
  let (n, s) ← hex4? s
  if 0xD800 ≤ n ∧ n < 0xDC00 then
    let s ← Text.strip? ['\\', 'u'] s
    let (m, s) ← hex4? s
    if 0xDC00 ≤ m ∧ m < 0xE000 then
      return (Char.ofNat (0x10000 + (n - 0xD800) * 0x400 + (m - 0xDC00)), s)
    else none
  else if 0xDC00 ≤ n ∧ n < 0xE000 then none
  else return (Char.ofNat n, s)

def escape? (s : Text) : Option (Char × Text) :=
  match s with
  | '"' :: s => some ('"', s)
  | '\\' :: s => some ('\\', s)
  | '/' :: s => some ('/', s)
  | 'b' :: s => some (Char.ofNat 8, s)
  | 'f' :: s => some (Char.ofNat 12, s)
  | 'n' :: s => some ('\n', s)
  | 'r' :: s => some ('\r', s)
  | 't' :: s => some ('\t', s)
  | 'u' :: s => unicode? s
  | _ => none

/-- Reads a string after its opening quote, and gives the rest. -/
def stringBody? : Nat → Text → Option (Text × Text)
  | 0, _ => none
  | fuel + 1, s =>
    match s with
    | [] => none
    | '"' :: rest => some ([], rest)
    | '\\' :: s => do
      let (c, s) ← escape? s
      let (body, rest) ← stringBody? fuel s
      return (c :: body, rest)
    | c :: s =>
      if c.toNat < 32 then none
      else (stringBody? fuel s).map fun (body, rest) => (c :: body, rest)

def isBlank (c : Char) : Bool := c == ' ' || c == '\n' || c == '\t' || c == '\r'

def sign? (c : Char) : Option Token :=
  match c with
  | '[' => some .openArray
  | ']' => some .closeArray
  | '{' => some .openMap
  | '}' => some .closeMap
  | ',' => some .comma
  | ':' => some .colon
  | _ => none

def name? (s : Text) : Option (Token × Text) :=
  let named (name : String) (v : Value) : Option (Token × Text) :=
    (Text.strip? name.toList s).map fun rest => (.atom v, rest)
  named "true" (.bool true) <|> named "false" (.bool false) <|> named "null" .null

def token? (s : Text) : Option (Token × Text) :=
  match s with
  | [] => none
  | '"' :: rest => (stringBody? s.length rest).map fun (body, rest) => (.string body, rest)
  | c :: rest =>
    match sign? c with
    | some t => some (t, rest)
    | none =>
      if c == '-' || c.isDigit then do
        let (n, rest) ← numeral? s
        return (.atom (← n.value?), rest)
      else name? s

/-- The tokens of a text, of which each takes at least one character. -/
def tokens? : Nat → Text → Option (List Token)
  | 0, _ => none
  | fuel + 1, s =>
    match s.dropWhile isBlank with
    | [] => some []
    | c :: s => do
      let (t, rest) ← token? (c :: s)
      return t :: (← tokens? fuel rest)

end Stencil.Json
