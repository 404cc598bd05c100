import Stencil.Regex.CharClass

namespace Stencil.Regex

/-- The flags that hold at a place of a pattern. -/
structure Flags where
  anyCase : Bool
  multiLine : Bool
  dotAll : Bool
  unicode : Bool
  verbose : Bool
  crlf : Bool

namespace Flags

def default : Flags := ⟨false, false, false, true, false, false⟩

def set? (f : Flags) (c : Char) (on : Bool) : Option Flags :=
  match c with
  | 'i' => some { f with anyCase := on }
  | 'm' => some { f with multiLine := on }
  | 's' => some { f with dotAll := on }
  | 'U' => some f
  | 'u' => some { f with unicode := on }
  | 'R' => some { f with crlf := on }
  | 'x' => some { f with verbose := on }
  | _ => none

/-- Leaves out so many characters of blanks and comments at most. -/
def skipBlanks : Nat → Text → Text
  | 0, s => s
  | fuel + 1, s =>
    match s with
    | '#' :: rest => skipBlanks fuel (rest.dropWhile (· != '\n'))
    | c :: rest => if isWhiteSpace c then skipBlanks fuel rest else s
    | [] => []

/-- Leaves out blanks and comments where they do not count. -/
def skip (f : Flags) (s : Text) : Text := if f.verbose then skipBlanks s.length s else s

/-- The characters of a kind at the start of a text, so many at most, and the rest. Blanks and
comments among them and after them are left out where they do not count. -/
def spanAtMost (f : Flags) (p : Char → Bool) : Nat → Text → Text × Text
  | 0, s => ([], s)
  | n + 1, s =>
    match f.skip s with
    | c :: rest =>
      if p c then
        let (cs, rest) := spanAtMost f p n rest
        (c :: cs, rest)
      else ([], c :: rest)
    | [] => ([], [])

/-- The characters of a kind at the start of a text, and the rest. -/
def span (f : Flags) (p : Char → Bool) (s : Text) : Text × Text := f.spanAtMost p (s.length + 1) s

/-- The class that a letter after a backslash stands for. -/
def letterClass (f : Flags) (c : Char) : CharClass := .ofLetter f.unicode c

/-- A class with the characters that differ from one of it only in case, where case does not
count. -/
def fold (f : Flags) (k : CharClass) : CharClass :=
  if !f.anyCase then k else if f.unicode then k.anyCase else k.anyAsciiCase

/-- The characters outside a class. There is no such class if bytes that are no characters would be
among them, as they are without the flag for Unicode. -/
def outside? (f : Flags) (k : CharClass) : Option CharClass :=
  if f.unicode then some k.outside else none

def denied? (f : Flags) (denied : Bool) (k : CharClass) : Option CharClass :=
  if denied then f.outside? k else some k

end Flags

end Stencil.Regex
