import Stencil.Regex.Basic
import Stencil.Regex.Flags
import Stencil.Regex.Property

namespace Stencil.Regex

/-- What a part of a pattern stands for: a character, a class or an anchor. -/
inductive Atom where
  | char (c : Char)
  | set (k : CharClass)
  | anchor (a : Anchor)

/-- The character with a number, if there is one. -/
def char? (n : Nat) : Option Char :=
  if n < 0xD800 ∨ (0xDFFF < n ∧ n < 0x110000) then some (Char.ofNat n) else none

def isHex (c : Char) : Bool :=
  c.isDigit || ('a'.toNat ≤ c.toNat && c.toNat ≤ 'f'.toNat) ||
    ('A'.toNat ≤ c.toNat && c.toNat ≤ 'F'.toNat)

def hexNumber (ds : Text) : Nat := CharRange.hexValue (ds.map Char.toUpper)

/-- Reads the number of a character, in braces or of a fixed number of digits. Two digits without
braces stand for a byte, which is no character above `7F` without the flag for Unicode. -/
def hexChar? (f : Flags) (count : Nat) (s : Text) : Option (Char × Text) :=
  match f.skip s with
  | '{' :: s => do
    let (ds, rest) := f.span isHex s
    let rest ← Text.strip? ['}'] rest
    if ds.isEmpty then none else return (← char? (hexNumber ds), rest)
  | s => do
    let (ds, rest) := f.spanAtMost isHex count s
    if ds.length ≠ count then none
    else
      let c ← char? (hexNumber ds)
      if count = 2 && !f.unicode && 0x7F < c.toNat then none else return (c, rest)

/-- Reads a property after its letter, which is in upper case if the property is denied. -/
def property? (f : Flags) (denied : Bool) (s : Text) : Option (CharClass × Text) := do
  let (name, rest) ←
    match f.skip s with
    | '{' :: s =>
      let (name, rest) := f.span (· != '}') s
      (Text.strip? ['}'] rest).map fun rest => (name, rest)
    | '\\' :: _ => none
    | c :: rest => some ([c], rest)
    | [] => none
  if !f.unicode then none
  else
    let (k, inverse) ← Property.ofText? name
    return (← f.denied? (denied != inverse) (f.fold k), rest)

/-- The characters that a backslash may stand before without meaning anything else. -/
def isEscapable (c : Char) : Bool :=
  c.toNat < 128 && !c.isAlpha && !c.isDigit && c != '<' && c != '>'

/-- Reads the name in braces that a word boundary may have. Braces without a name are a count. -/
def boundary? (f : Flags) (s : Text) : Option (Anchor × Text) :=
  let isNameChar (c : Char) : Bool := c.isAlpha || c == '-'
  match s with
  | '{' :: inner =>
    match f.span isNameChar inner with
    | ([], []) => none
    | ([], _) => some (.wordBoundary, s)
    | (name, rest) => do
      let rest ← Text.strip? ['}'] rest
      match String.ofList name with
      | "start" => some (.wordStart, rest)
      | "end" => some (.wordEnd, rest)
      | "start-half" => some (.wordStartHalf, rest)
      | "end-half" => some (.wordEndHalf, rest)
      | _ => none
  | _ => some (.wordBoundary, s)

def escape? (f : Flags) (s : Text) : Option (Atom × Text) :=
  match s with
  | [] => none
  | c :: rest =>
    match c with
    | 'x' => (hexChar? f 2 rest).map fun (c, r) => (.char c, r)
    | 'u' => (hexChar? f 4 rest).map fun (c, r) => (.char c, r)
    | 'U' => (hexChar? f 8 rest).map fun (c, r) => (.char c, r)
    | 'p' => (property? f false rest).map fun (k, r) => (.set k, r)
    | 'P' => (property? f true rest).map fun (k, r) => (.set k, r)
    | 'd' | 's' | 'w' => some (.set (f.letterClass c), rest)
    | 'D' | 'S' | 'W' => (f.outside? (f.letterClass c.toLower)).map fun k => (.set k, rest)
    | 'a' => some (.char (Char.ofNat 7), rest)
    | 'f' => some (.char (Char.ofNat 12), rest)
    | 't' => some (.char '\t', rest)
    | 'n' => some (.char '\n', rest)
    | 'r' => some (.char '\r', rest)
    | 'v' => some (.char (Char.ofNat 11), rest)
    | 'A' => some (.anchor .textStart, rest)
    | 'z' => some (.anchor .textEnd, rest)
    | 'b' => (boundary? f rest).map fun (a, r) => (.anchor a, r)
    | 'B' => some (.anchor .noWordBoundary, rest)
    | '<' => some (.anchor .wordStart, rest)
    | '>' => some (.anchor .wordEnd, rest)
    | _ => if isEscapable c then some (.char c, rest) else none

def Atom.regex (f : Flags) : Atom → Regex
  | .char c => .one (f.fold (CharRange.one c))
  | .set k => .one k
  | .anchor a => .anchor (f.letterClass 'w') a

end Stencil.Regex
