import Stencil.Text.Basic

namespace Stencil

/-- The three kinds of placeholders. -/
inductive Placeholder.Kind where
  | opens
  | closes
  | alone
deriving Repr, DecidableEq

/-- A tag with its depth and the index of its attributes. A placeholder `<_if:0 3>` is at depth 0,
and its attributes are the set with index 3; its closer is `</_if:0>`. -/
structure Placeholder where
  name : Text
  depth : Nat
  attrs : Option Nat
  kind : Placeholder.Kind
deriving Repr, DecidableEq

namespace Placeholder

def isNameChar (c : Char) : Bool :=
  c.isAlpha || c.isDigit || c == '_' || c == '-' || c == '.' || c == '$' || c == '!' || c == ':'

/-- Is this the name of a function (`_name`), a component (`Name`) or an import (`_:name`)? -/
def isSpecialName (name : Text) : Bool := name.head?.any fun c => c == '_' || c.isUpper

/-- Is this the name of a mark between branches, which has no content of its own? -/
def isBranchMark (name : Text) : Bool := name = "_elif".toList || name = "_else".toList

def closer (name : Text) (depth : Nat) : Text :=
  ['<', '/'] ++ name ++ [':'] ++ Text.ofNat depth ++ ['>']

def written (p : Placeholder) : Text :=
  let index := match p.attrs with
    | some n => ' ' :: Text.ofNat n
    | none => []
  match p.kind with
  | .closes => closer p.name p.depth
  | .opens => ['<'] ++ p.name ++ [':'] ++ Text.ofNat p.depth ++ index ++ ['>']
  | .alone => ['<'] ++ p.name ++ [':'] ++ Text.ofNat p.depth ++ index ++ ['/', '>']

/-- Reads a name and a depth: all up to the last colon, and the number after it. -/
def nameAndDepth? (full : Text) : Option (Text × Nat) := do
  let (name, depth) ← Text.cutLast? ':' full
  if isSpecialName name then return (name, ← Text.toIndex? depth) else none

/-- Reads the index after a name: `none` if there is a blank without a number. -/
def index? (s : Text) : Option (Option Nat × Text) :=
  match s with
  | ' ' :: s => (Text.toIndex? (s.takeWhile Char.isDigit)).map fun n =>
      (some n, s.dropWhile Char.isDigit)
  | _ => some (none, s)

def kind? (s : Text) : Option (Kind × Text) :=
  match s with
  | '/' :: '>' :: rest => some (.alone, rest)
  | '>' :: rest => some (.opens, rest)
  | _ => none

/-- Reads the placeholder at the start of a text, and gives the rest. -/
def read? (s : Text) : Option (Placeholder × Text) :=
  match s with
  | '<' :: '/' :: s =>
    (nameAndDepth? (s.takeWhile isNameChar)).bind fun (name, depth) =>
      (Text.strip? ['>'] (s.dropWhile isNameChar)).map fun rest =>
        (⟨name, depth, none, .closes⟩, rest)
  | '<' :: s =>
    (nameAndDepth? (s.takeWhile isNameChar)).bind fun (name, depth) =>
      (index? (s.dropWhile isNameChar)).bind fun (attrs, s) =>
        (kind? s).map fun (kind, rest) => (⟨name, depth, attrs, kind⟩, rest)
  | _ => none

/-- A placeholder found in a text: what is before it, the placeholder as it was written there, and
what follows it. -/
structure Found where
  before : Text
  placeholder : Placeholder
  source : Text
  after : Text
deriving Repr, DecidableEq

/-- The first placeholder of a text. -/
def next? : Text → Option Found
  | [] => none
  | c :: s =>
    match read? (c :: s) with
    | some (p, rest) => some ⟨[], p, (c :: s).take (s.length + 1 - rest.length), rest⟩
    | none => (next? s).map fun f => { f with before := c :: f.before }

/-- Cuts a text at the first closer of a tag at a depth. -/
def cutCloser? (name : Text) (depth : Nat) (s : Text) : Option (Text × Text) :=
  Text.cut? (closer name depth) s

theorem length_of_index? {s rest : Text} {attrs : Option Nat} (h : index? s = some (attrs, rest)) :
    rest.length ≤ s.length := by
  unfold index? at h
  split at h
  next s =>
    obtain ⟨n, _, he⟩ := Option.map_eq_some_iff.mp h
    cases he
    have := Text.length_dropWhile_le Char.isDigit s
    simp only [List.length_cons]
    omega
  next => cases Option.some.inj h; simp

theorem length_of_read? {s rest : Text} {p : Placeholder} (h : read? s = some (p, rest)) :
    rest.length < s.length := by
  unfold read? at h
  split at h
  next s =>
    obtain ⟨_, _, h⟩ := Option.bind_eq_some_iff.mp h
    obtain ⟨r, hr, he⟩ := Option.map_eq_some_iff.mp h
    cases he
    have hl := congrArg List.length (Text.strip?_eq_some_iff.mp hr)
    have := Text.length_dropWhile_le isNameChar s
    simp only [List.length_append, List.length_cons, List.length_nil] at hl ⊢
    omega
  next s _ =>
    obtain ⟨_, _, h⟩ := Option.bind_eq_some_iff.mp h
    obtain ⟨⟨a, s'⟩, hi, h⟩ := Option.bind_eq_some_iff.mp h
    obtain ⟨⟨k, r⟩, hk, he⟩ := Option.map_eq_some_iff.mp h
    cases he
    have hl := length_of_index? hi
    have := Text.length_dropWhile_le isNameChar s
    simp only [List.length_cons]
    unfold kind? at hk
    split at hk
    · cases Option.some.inj hk; simp only [List.length_cons] at hl; omega
    · cases Option.some.inj hk; simp only [List.length_cons] at hl; omega
    · simp at hk
  next => simp at h

theorem length_of_next? {s : Text} {f : Found} (h : next? s = some f) :
    f.after.length < s.length := by
  induction s generalizing f with
  | nil => simp [next?] at h
  | cons c s ih =>
    unfold next? at h
    split at h
    next p rest hr =>
      cases Option.some.inj h
      exact length_of_read? hr
    next =>
      obtain ⟨g, hg, rfl⟩ := Option.map_eq_some_iff.mp h
      have := ih hg
      simp only [List.length_cons]
      omega

/-- A text as characters outside placeholders, and placeholders. -/
def pieces : Text → List (Char ⊕ Placeholder)
  | [] => []
  | c :: s =>
    match _h : read? (c :: s) with
    | some (p, rest) => .inr p :: pieces rest
    | none => .inl c :: pieces s
termination_by s => s.length
decreasing_by
  · exact length_of_read? _h
  · simp

/-- A placeholder with its depth lowered, to no less than zero. -/
def lower (p : Placeholder) (amount : Nat) : Placeholder := { p with depth := p.depth - amount }

/-- Lowers the depth of every placeholder of a text. -/
def lowerDepth (s : Text) (amount : Nat) : Text :=
  (pieces s).flatMap fun
    | .inl c => [c]
    | .inr p => (p.lower amount).written

end Placeholder

end Stencil
