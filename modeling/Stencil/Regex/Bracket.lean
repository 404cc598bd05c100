import Stencil.Regex.Escape

namespace Stencil.Regex

/-- The operations on classes in brackets. -/
inductive SetOp where
  | both
  | minus
  | exactlyOne

def SetOp.apply (op : SetOp) (a b : CharClass) : CharClass :=
  match op with
  | both => a.both b
  | minus => a.minus b
  | exactlyOne => a.exactlyOne b

/-- A class and its depth. -/
structure DeepClass where
  chars : CharClass
  depth : Nat

/-- A bracket that is open: whether it is denied, the operation that waits for its right side, and
the classes listed since, how many they are and how deep. -/
structure Bracket where
  denied : Bool
  waiting : Option (SetOp × DeepClass)
  chars : CharClass
  count : Nat
  depth : Nat

namespace Bracket

def add (b : Bracket) (k : DeepClass) : Bracket :=
  { b with chars := b.chars.union k.chars, count := b.count + 1, depth := max b.depth k.depth }

/-- Adds a class that is not itself in brackets. -/
def addFlat (b : Bracket) (k : CharClass) : Bracket := b.add ⟨k, 0⟩

def listed (b : Bracket) : DeepClass := ⟨b.chars, if b.count < 2 then b.depth else b.depth + 1⟩

/-- The class so far, with the operation that waits for it. Both sides of an operation have the
characters that differ only in case, where case does not count. -/
def value (f : Flags) (b : Bracket) : DeepClass :=
  match b.waiting with
  | none => b.listed
  | some (op, left) =>
    ⟨op.apply (f.fold left.chars) (f.fold b.listed.chars), max left.depth b.listed.depth + 1⟩

def close? (f : Flags) (b : Bracket) : Option DeepClass :=
  let k := b.value f
  (f.denied? b.denied (f.fold k.chars)).map fun chars => ⟨chars, k.depth + 1⟩

/-- Makes what is in a bracket so far the left side of an operation. -/
def operate (f : Flags) (b : Bracket) (op : SetOp) : Bracket :=
  ⟨b.denied, some (op, b.value f), [], 0, 0⟩

/-- Reads hyphens at the start of a bracket, so many at most. -/
def hyphens (f : Flags) : Nat → Bracket → Text → Bracket × Text
  | 0, b, s => (b, s)
  | fuel + 1, b, s =>
    match s with
    | '-' :: rest => hyphens f fuel (b.addFlat (CharRange.one '-')) (f.skip rest)
    | s => (b, s)

/-- Reads the start of a bracket, after the bracket itself. Hyphens or a closing bracket there stand
for themselves. -/
def start (f : Flags) (s : Text) : Bracket × Text :=
  let s := f.skip s
  let (denied, s) := match s with
    | '^' :: s => (true, f.skip s)
    | s => (false, s)
  let (b, s) := hyphens f s.length ⟨denied, none, [], 0, 0⟩ s
  match s with
  | ']' :: rest => if b.count = 0 then (b.addFlat (CharRange.one ']'), f.skip rest) else (b, s)
  | s => (b, s)

end Bracket

/-- Reads a class that is given by an ASCII name, as in `[:alpha:]`, after its first bracket, and
whether it is denied. -/
def asciiName? (s : Text) : Option (CharClass × Bool × Text) := do
  let s ← Text.strip? [':'] s
  let (denied, s) := match s with
    | '^' :: s => (true, s)
    | s => (false, s)
  let rest ← Text.strip? [':', ']'] (s.dropWhile (· != ':'))
  let k ← CharClass.ofAsciiName? (s.takeWhile (· != ':'))
  return (k, denied, rest)

def bracketItem? (f : Flags) (s : Text) : Option (Atom × Text) :=
  match s with
  | '\\' :: s => escape? f s
  | c :: s => some (.char c, s)
  | [] => none

/-- The first character after blanks and the sign of a comment, where they do not count. -/
def afterBlanks? (f : Flags) (s : Text) : Option Char :=
  if !f.verbose then s.head?
  else
    match s.dropWhile isWhiteSpace with
    | '#' :: rest => (rest.dropWhile isWhiteSpace).head?
    | rest => rest.head?

/-- Is a character allowed in a class? Without the flag for Unicode it must be one of ASCII. -/
def isAllowed (f : Flags) (c : Char) : Bool := f.unicode || c.toNat < 128

/-- Reads a character, a range of characters, or a class in a bracket. A hyphen stands for itself
before a closing bracket, and another hyphen makes an operation of it. -/
def bracketRange? (f : Flags) (s : Text) : Option (CharClass × Text) := do
  let (first, s) ← bracketItem? f s
  let s := f.skip s
  let single : Option (CharClass × Text) :=
    match first with
    | .char c => if isAllowed f c then some (CharRange.one c, s) else none
    | .set k => some (k, s)
    | .anchor _ => none
  match s with
  | [] => none
  | '-' :: more =>
    if afterBlanks? f more = some ']' || afterBlanks? f more = some '-' then single
    else
      let (last, rest) ← bracketItem? f (f.skip more)
      match first, last with
      | .char a, .char b =>
        if a.toNat ≤ b.toNat && isAllowed f a && isAllowed f b then
          some ([(a.toNat, b.toNat)], rest)
        else none
      | _, _ => none
  | _ => single

/-- Reads a class in brackets, given the brackets that are open, innermost first. -/
def brackets? (f : Flags) : Nat → Bracket → List Bracket → Text → Option (DeepClass × Text)
  | 0, _, _, _ => none
  | fuel + 1, b, outer, s =>
    match f.skip s with
    | [] => none
    | '[' :: rest =>
      match asciiName? rest with
      | some (k, denied, rest) => do
        brackets? f fuel (b.addFlat (← f.denied? denied (f.fold k))) outer rest
      | none =>
        let (inner, rest) := Bracket.start f rest
        brackets? f fuel inner (b :: outer) rest
    | ']' :: rest => do
      let k ← b.close? f
      match outer with
      | [] => some (k, rest)
      | o :: outer => brackets? f fuel (o.add k) outer rest
    | '&' :: '&' :: rest => brackets? f fuel (b.operate f .both) outer rest
    | '-' :: '-' :: rest => brackets? f fuel (b.operate f .minus) outer rest
    | '~' :: '~' :: rest => brackets? f fuel (b.operate f .exactlyOne) outer rest
    | s => do
      let (k, rest) ← bracketRange? f s
      brackets? f fuel (b.addFlat k) outer rest

/-- Reads a class in brackets after its first bracket. -/
def bracketed? (f : Flags) (s : Text) : Option (DeepClass × Text) :=
  let (b, rest) := Bracket.start f s
  brackets? f (s.length + 1) b [] rest

end Stencil.Regex
