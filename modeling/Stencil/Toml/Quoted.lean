import Stencil.Toml.Scalar

namespace Stencil.Toml

def isPrintable (c : Char) : Bool := c == '\t' || (0x20 ≤ c.toNat && c.toNat != 0x7F)

def charOf? (n : Nat) : Option Char := if n.isValidChar then some (Char.ofNat n) else none

def hexChar? (width : Nat) (s : Text) : Option (Char × Text) :=
  let ds := s.take width
  if ds.length = width ∧ ds.all (isDigitOf 16) then
    (charOf? (ds.foldl (fun n c => 16 * n + digitValue c) 0)).map fun c => (c, s.drop width)
  else none

def escaped? (s : Text) : Option (Char × Text) :=
  match s with
  | 'b' :: s => some ('\x08', s)
  | 't' :: s => some ('\t', s)
  | 'n' :: s => some ('\n', s)
  | 'f' :: s => some ('\x0c', s)
  | 'r' :: s => some ('\r', s)
  | '"' :: s => some ('"', s)
  | '\\' :: s => some ('\\', s)
  | 'u' :: s => hexChar? 4 s
  | 'U' :: s => hexChar? 8 s
  | _ => none

def lineBreak? (s : Text) : Option Text :=
  match s with
  | '\n' :: s => some s
  | '\r' :: '\n' :: s => some s
  | _ => none

def dropBlanks (s : Text) : Text := s.dropWhile fun c => c == ' ' || c == '\t'

def dropLines : Text → Text
  | ' ' :: s => dropLines s
  | '\t' :: s => dropLines s
  | '\n' :: s => dropLines s
  | '\r' :: '\n' :: s => dropLines s
  | s => s

/-- What a backslash at the end of a line stands for: nothing, and the line break and all blanks up
to the next text are left out. -/
def joinedLine? (s : Text) : Option Text := (lineBreak? (dropBlanks s)).map dropLines

/-- Reads up to the sign that closes a string in one line. The number bounds the characters read. -/
def oneLine? (quote : Char) : Nat → Text → Option (Text × Text)
  | 0, _ => none
  | _, [] => none
  | n + 1, c :: s =>
    if c = quote then some ([], s)
    else if c = '\\' ∧ quote = '"' then do
      let (c, s) ← escaped? s
      let (inside, rest) ← oneLine? quote n s
      return (c :: inside, rest)
    else if isPrintable c then (oneLine? quote n s).map fun (inside, rest) => (c :: inside, rest)
    else none

/-- The end of a string between triple signs: up to two more signs before them belong to it. -/
def tripleEnd? (quote : Char) (s : Text) : Option (Text × Text) :=
  let signs := s.takeWhile (· == quote)
  if 3 ≤ signs.length then
    let inside := min (signs.length - 3) 2
    some (List.replicate inside quote, s.drop (inside + 3))
  else none

/-- Reads up to the triple sign that closes a string. The number bounds the characters read. -/
def manyLines? (quote : Char) : Nat → Text → Option (Text × Text)
  | 0, _ => none
  | _, [] => none
  | n + 1, c :: s =>
    match tripleEnd? quote (c :: s) with
    | some closed => some closed
    | none =>
      let more (c : Char) (s : Text) : Option (Text × Text) :=
        (manyLines? quote n s).map fun (inside, rest) => (c :: inside, rest)
      match lineBreak? (c :: s) with
      | some s => more '\n' s
      | none =>
        if c = '\\' ∧ quote = '"' then
          match joinedLine? s with
          | some s => manyLines? quote n s
          | none => (escaped? s).bind fun (c, s) => more c s
        else if isPrintable c then more c s
        else none

def lineString? (s : Text) : Option (Text × Text) :=
  match s with
  | '"' :: s => oneLine? '"' (s.length + 1) s
  | '\'' :: s => oneLine? '\'' (s.length + 1) s
  | _ => none

/-- Reads a string at the start of a text. A line break just after a triple sign does not count. -/
def string? (s : Text) : Option (Text × Text) :=
  let many (quote : Char) (s : Text) : Option (Text × Text) :=
    manyLines? quote (s.length + 1) ((lineBreak? s).getD s)
  match s with
  | '"' :: '"' :: '"' :: s => many '"' s
  | '\'' :: '\'' :: '\'' :: s => many '\'' s
  | s => lineString? s

end Stencil.Toml
