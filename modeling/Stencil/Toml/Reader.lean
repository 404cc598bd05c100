import Stencil.Toml.Quoted

namespace Stencil.Toml

/-- Arrays and inline tables are nested no deeper than this, and no key has more parts. -/
def maxDepth : Nat := 79

/-- Can this character stand in a key without quotes? -/
def isBare (c : Char) : Bool := c.isAlpha || c.isDigit || c == '_' || c == '-'

def keyPart? (s : Text) : Option (Text × Text) :=
  match lineString? s with
  | some part => some part
  | none =>
    let part := s.takeWhile isBare
    if part.isEmpty then none else some (part, s.drop part.length)

/-- Reads a key: parts with points between them, and blanks around. The number bounds the parts. -/
def key? : Nat → Text → Option (List Text × Text)
  | 0, _ => none
  | n + 1, s => do
    let (part, rest) ← keyPart? (dropBlanks s)
    match dropBlanks rest with
    | '.' :: rest => (key? n rest).map fun (parts, rest) => (part :: parts, rest)
    | rest => return ([part], rest)

def afterComment? (s : Text) : Option Text :=
  match s with
  | '#' :: s =>
    let rest := s.dropWhile isPrintable
    if rest.isEmpty ∨ (lineBreak? rest).isSome then some rest else none
  | s => some s

/-- Leaves out what may end a line: blanks, a comment, and the line break. -/
def endLine? (s : Text) : Option Text := do
  let rest ← afterComment? (dropBlanks s)
  if rest.isEmpty then return [] else lineBreak? rest

/-- Leaves out blanks, line breaks and comments. The number bounds the comments. -/
def dropSpace? : Nat → Text → Option Text
  | 0, _ => none
  | n + 1, s =>
    match dropLines s with
    | '#' :: s => (afterComment? ('#' :: s)).bind (dropSpace? n)
    | s => some s

def endsWord (c : Char) : Bool :=
  c == ' ' || c == '\t' || c == '\n' || c == '\r' || c == ',' || c == ']' || c == '}' || c == '#'

/-- Cuts off a word. A day and a time with a blank between them are one word. -/
def cutWord (s : Text) : Text × Text :=
  let word := s.takeWhile fun c => !endsWord c
  let rest := s.drop word.length
  match rest with
  | ' ' :: more =>
    let time := more.takeWhile fun c => !endsWord c
    if isDay word && isZonedTime time then (word ++ [' '] ++ time, more.drop time.length)
    else (word, rest)
  | _ => (word, rest)

mutual

/-- Reads a value, when arrays and tables may be nested so deep. The first number bounds the
steps. -/
def value? : Nat → Nat → Text → Option (Toml × Text)
  | 0, _, _ => none
  | n + 1, room, s =>
    match s, room with
    | '[' :: s, room + 1 => (items? n room s).map fun (items, rest) => (array items, rest)
    | '{' :: s, room + 1 =>
      match dropBlanks s with
      | '}' :: rest => some (table .inline [], rest)
      | s => (members? n room [] s).map fun (entries, rest) => (table .inline entries, rest)
    | '[' :: _, 0 | '{' :: _, 0 => none
    | c :: s, _ =>
      if c = '"' ∨ c = '\'' then (string? (c :: s)).map fun (t, rest) => (string t, rest)
      else
        let (word, rest) := cutWord (c :: s)
        (word? word).map fun v => (v, rest)
    | [], _ => none

def items? : Nat → Nat → Text → Option (List Toml × Text)
  | 0, _, _ => none
  | n + 1, room, s => do
    match ← dropSpace? (s.length + 1) s with
    | ']' :: rest => return ([], rest)
    | s =>
      let (v, s) ← value? n room s
      match ← dropSpace? (s.length + 1) s with
      | ']' :: rest => return ([v], rest)
      | ',' :: s =>
        let (more, rest) ← items? n room s
        return (v :: more, rest)
      | _ => none

/-- Reads the members of an inline table that are left, up to its end. -/
def members? : Nat → Nat → Entries → Text → Option (Entries × Text)
  | 0, _, _, _ => none
  | n + 1, room, es, s => do
    let (path, s) ← key? maxDepth s
    match s with
    | '=' :: s =>
      let (v, s) ← value? n room (dropBlanks s)
      let es ← addKey? path v .inline es
      match dropBlanks s with
      | '}' :: rest => return (es, rest)
      | ',' :: s => members? n room es s
      | _ => none
    | _ => none

end

/-- A document as far as it is read: its entries, and the path of the table that is open. -/
structure Document where
  root : Entries
  current : List Text

namespace Document

def add? (d : Document) (path : List Text) (v : Toml) : Option Document :=
  (change? .header (addKey? path v) d.current .header d.root).map fun root => { d with root }

def openTable? (d : Document) (path : List Text) : Option Document :=
  (Toml.openTable? path d.root).map fun root => ⟨root, path⟩

def openItem? (d : Document) (path : List Text) : Option Document :=
  (Toml.openItem? path d.root).map fun root => ⟨root, path⟩

/-- Reads a header in double brackets, a header, or a key with its value. -/
def entry? (d : Document) (s : Text) : Option (Document × Text) :=
  match s with
  | '[' :: '[' :: s => do
    let (path, s) ← key? maxDepth s
    let s ← Text.strip? [']', ']'] s
    return (← d.openItem? path, s)
  | '[' :: s => do
    let (path, s) ← key? maxDepth s
    let s ← Text.strip? [']'] s
    return (← d.openTable? path, s)
  | s => do
    let (path, s) ← key? maxDepth s
    let s ← Text.strip? ['='] s
    let (v, s) ← value? (2 * s.length + 2) maxDepth (dropBlanks s)
    return (← d.add? path v, s)

def lines? : Nat → Document → Text → Option Document
  | 0, _, _ => none
  | n + 1, d, s =>
    match dropLines s with
    | [] => some d
    | '#' :: s => (endLine? ('#' :: s)).bind (lines? n d)
    | s => do
      let (d, s) ← d.entry? s
      lines? n d (← endLine? s)

end Document

/-- Reads a document. A byte order mark in front of it does not count. -/
def read? (s : Text) : Option Entries :=
  let s := (Text.strip? ['\uFEFF'] s).getD s
  (Document.lines? (s.length + 1) ⟨[], []⟩ s).map Document.root

end Stencil.Toml
