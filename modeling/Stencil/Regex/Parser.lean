import Stencil.Regex.Bracket
import Stencil.Regex.Match
import Stencil.Regex.Size

namespace Stencil.Regex

/-- How deeply brackets, groups, repetitions, sequences and choices may hold one another. -/
def maxDepth : Nat := 250

/-- A pattern that is read and its depth. A change of flags is a part without a pattern. -/
structure Part where
  regex : Option Regex
  depth : Nat

/-- The depth of some parts together: one more than that of the deepest, unless it is alone. -/
def depthOf (parts : List Part) : Nat :=
  let deepest := parts.foldl (fun n p => max n p.depth) 0
  if parts.length < 2 then deepest else deepest + 1

/-- What is read of a group so far: the flags outside it, whether it is marked, the alternatives
before the present one and the parts of the present one, last first. -/
structure Group where
  outside : Flags
  marked : Bool
  alternatives : List Part
  parts : List Part

/-- The alternative read last. -/
def Group.current (g : Group) : Part :=
  ⟨ofParts (g.parts.reverse.filterMap Part.regex), depthOf g.parts⟩

def Group.value (g : Group) : Part :=
  let alternatives := (g.current :: g.alternatives).reverse
  ⟨ofAlternatives (alternatives.filterMap Part.regex), depthOf alternatives⟩

def Group.closed (g : Group) : Part :=
  ⟨g.value.regex.map fun r => if g.marked then .group r else r, g.value.depth + 1⟩

def Group.push (g : Group) (p : Part) : Group := { g with parts := p :: g.parts }

def Group.nextAlternative (g : Group) : Group :=
  { g with alternatives := g.current :: g.alternatives, parts := [] }

/-- Repeats the part read last, if there is one that can be repeated. -/
def Group.repeatLast? (g : Group) (least : Nat) (greatest : Option Nat) : Option Group :=
  match g.parts with
  | ⟨some r, depth⟩ :: parts =>
    some { g with parts := ⟨some (r.repeatedly least greatest), depth + 1⟩ :: parts }
  | _ => none

def count? (f : Flags) (s : Text) : Option (Nat × Text) :=
  let (ds, rest) := f.span Char.isDigit (s.dropWhile isWhiteSpace)
  let n := Text.digitsValue ds
  if ds.isEmpty || Nat.pow 2 32 ≤ n then none else some (n, f.skip (rest.dropWhile isWhiteSpace))

/-- Reads a count in braces, after the first brace: the least and the greatest number. -/
def counted? (f : Flags) (s : Text) : Option ((Nat × Option Nat) × Text) := do
  let (least, s) ← count? f (f.skip s)
  match s with
  | '}' :: rest => some ((least, some least), rest)
  | ',' :: s =>
    match f.skip s with
    | '}' :: rest => some ((least, none), rest)
    | s => do
      let (greatest, s) ← count? f s
      match s with
      | '}' :: rest => if least ≤ greatest then some ((least, some greatest), rest) else none
      | _ => none
  | _ => none

/-- Leaves out the mark that makes a repetition take as little as it can. It does not change whether
a pattern matches. -/
def withoutMark : Text → Text
  | '?' :: rest => rest
  | s => s

/-- Reads flags up to the sign that ends them: the flags, and whether a group follows. No flag may
come twice, and the minus sign comes once and before a flag. -/
def flags? (f : Flags) (seen : List Char) (on : Bool) : Text → Option (Flags × Bool × Text)
  | [] => none
  | ':' :: rest => if seen.head? = some '-' then none else some (f, true, rest)
  | ')' :: rest => if seen.isEmpty || seen.head? = some '-' then none else some (f, false, rest)
  | c :: s =>
    if seen.contains c then none
    else if c = '-' then flags? f (c :: seen) false s
    else (f.set? c on).bind fun f => flags? f (c :: seen) on s

def groupName? (s : Text) : Option (Text × Text) := do
  let (name, rest) ← Text.cut? ['>'] s
  let isPart (c : Char) : Bool :=
    c == '_' || c == '.' || c == '[' || c == ']' || isAlphanumeric c
  match name with
  | c :: more => if (c == '_' || isAlphabetic c) && more.all isPart then some (name, rest) else none
  | [] => none

/-- A state of the reader: the flags, the group that is being read, the groups around it, and the
names of groups so far. -/
structure State where
  flags : Flags
  group : Group
  outer : List Group
  names : List Text

/-- The state before a pattern. -/
def State.start : State := ⟨.default, ⟨.default, false, [], []⟩, [], []⟩

def State.openGroup (st : State) (flags : Flags) (marked : Bool) : State :=
  { st with flags := flags, group := ⟨st.flags, marked, [], []⟩, outer := st.group :: st.outer }

def State.namedGroup? (st : State) (s : Text) : Option (State × Text) := do
  let (name, rest) ← groupName? s
  if st.names.contains name then none
  else return ({ st.openGroup st.flags true with names := name :: st.names }, rest)

/-- Reads the start of a group, after its bracket. -/
def State.group? (st : State) (s : Text) : Option (State × Text) := do
  let s := st.flags.skip s
  if ['?', '='].isPrefixOf s || ['?', '!'].isPrefixOf s || ['?', '<', '='].isPrefixOf s ||
      ['?', '<', '!'].isPrefixOf s then none
  else
    match s with
    | '?' :: 'P' :: '<' :: s => st.namedGroup? s
    | '?' :: '<' :: s => st.namedGroup? s
    | '?' :: s =>
      let (flags, isGroup, rest) ← flags? st.flags [] true s
      if isGroup then return (st.openGroup flags false, rest)
      else return ({ st with flags := flags, group := st.group.push ⟨none, 0⟩ }, rest)
    | s => return (st.openGroup st.flags true, s)

def State.closeGroup? (st : State) : Option State :=
  match st.outer with
  | [] => none
  | g :: outer =>
    some { st with flags := st.group.outside, group := g.push st.group.closed, outer := outer }

/-- The class of the characters that a point stands for. Without the flag for Unicode a point would
also stand for bytes that are no characters. -/
def point? (f : Flags) : Option CharClass :=
  f.outside? (CharRange.ofHex (if f.dotAll then "" else if f.crlf then "A D" else "A"))

def startAnchor (f : Flags) : Anchor :=
  if !f.multiLine then .textStart else if f.crlf then .lineStartCrlf else .lineStart

def endAnchor (f : Flags) : Anchor :=
  if !f.multiLine then .textEnd else if f.crlf then .lineEndCrlf else .lineEnd

def State.next? (st : State) (c : Char) (s : Text) : Option (State × Text) :=
  let f := st.flags
  let push (r : Regex) (depth : Nat) (rest : Text) : Option (State × Text) :=
    some ({ st with group := st.group.push ⟨some r, depth⟩ }, rest)
  let repeated (least : Nat) (greatest : Option Nat) (rest : Text) : Option (State × Text) :=
    (st.group.repeatLast? least greatest).map fun g => ({ st with group := g }, withoutMark rest)
  match c with
  | '(' => st.group? s
  | ')' => st.closeGroup?.map fun st => (st, s)
  | '|' => some ({ st with group := st.group.nextAlternative }, s)
  | '[' => (bracketed? f s).bind fun (k, rest) => push (.one k.chars) k.depth rest
  | '?' => repeated 0 (some 1) s
  | '*' => repeated 0 none s
  | '+' => repeated 1 none s
  | '{' =>
    (counted? f s).bind fun ((least, greatest), rest) => repeated least greatest (f.skip rest)
  | '\\' => (escape? f s).bind fun (a, rest) => push (a.regex f) 0 rest
  | '.' => (point? f).bind fun k => push (.one k) 0 s
  | '^' => push ((Atom.anchor (startAnchor f)).regex f) 0 s
  | '$' => push ((Atom.anchor (endAnchor f)).regex f) 0 s
  | c => push ((Atom.char c).regex f) 0 s

def State.run? : Nat → State → Text → Option Part
  | 0, _, _ => none
  | fuel + 1, st, s =>
    match st.flags.skip s with
    | [] => if st.outer.isEmpty then some st.group.value else none
    | c :: s => (st.next? c s).bind fun (st, rest) => State.run? fuel st rest

def ofText? (s : Text) : Option Regex := do
  let whole ← State.run? (s.length + 1) .start s
  let r ← whole.regex
  if whole.depth ≤ maxDepth && r.fits then some r else none

/-- Does a text match a pattern somewhere? A pattern without meaning matches nothing. -/
def search (pattern s : Text) : Bool := (ofText? pattern).any fun r => r.isMatch s

end Stencil.Regex
