import Stencil.Attributes
import Stencil.Tag.Basic

namespace Stencil.Tag

def isOperatorChar (c : Char) : Bool :=
  c == '=' || c == '!' || c == '<' || c == '>' || c == '&' || c == '|' || c == '(' || c == ')' ||
    c == '~' || c == '^'

def isPairOperator (a b : Char) : Bool :=
  (b == '=' && (a == '!' || a == '<' || a == '>' || a == '=')) || (a == '&' && b == '&') ||
    (a == '|' && b == '|')

/-- Cuts an operand off a text: up to a blank, an operator or the opening sign of a reference. -/
def operand : Text → Text × Text
  | [] => ([], [])
  | c :: s =>
    if isAsciiBlank c || isOperatorChar c || (c == '%' && s.head? == some '!') then ([], c :: s)
    else
      let (word, rest) := operand s
      (c :: word, rest)

/-- Reads a whole reference at the start of a text, and gives the rest. -/
def reference? (s : Text) : Option (Text × Text) :=
  (Text.strip? Marker.opening s).bind fun inner =>
    (Text.cut? Marker.closing inner).map fun (inside, rest) =>
      (Marker.opening ++ inside ++ Marker.closing, rest)

/-- The first token of a condition that does not start with a blank, and the rest. The opening sign
of a reference that never closes is no token at all: there the first token is empty and the rest is
the same text. -/
def conditionToken (s : Text) : Text × Text :=
  match hole? s with
  | some r => r
  | none =>
    match reference? s with
    | some r => r
    | none =>
      match s with
      | a :: b :: rest =>
        if isOperatorChar a then
          if isPairOperator a b then ([a, b], rest) else ([a], b :: rest)
        else operand s
      | [a] => ([a], [])
      | [] => ([], [])

/-- Splits a condition into its tokens. There is no answer if at some place the next token takes
nothing from the text. -/
def conditionTokens? (s : Text) : Option (List Text) :=
  match _h : s.dropWhile isAsciiBlank with
  | [] => some []
  | c :: s' =>
    let step := conditionToken (c :: s')
    if _hl : step.2.length < (c :: s').length then
      (conditionTokens? step.2).map (step.1 :: ·)
    else none
termination_by s.length
decreasing_by
  have := Text.length_dropWhile_le isAsciiBlank s
  rw [_h] at this
  exact Nat.lt_of_lt_of_le _hl this

/-- Splits the tail of a tag at blanks. Holes stay whole, and `key = value` is one token.
The tokens so far are given backwards. -/
def attributeTokens (tokens : List Text) (current : Text) : Text → List Text
  | [] => (if current.isEmpty then tokens else current :: tokens).reverse
  | c :: s =>
    match _h : hole? (c :: s) with
    | some (hole, rest) => attributeTokens tokens (current ++ hole) rest
    | none =>
      if isAsciiBlank c then
        if current.isEmpty then attributeTokens tokens [] s
        else attributeTokens (current :: tokens) [] s
      else if c = '=' then
        let rest := s.dropWhile isAsciiBlank
        if current.isEmpty && s.head?.any isAsciiBlank then
          match tokens with
          | previous :: others =>
            if previous.contains '=' then attributeTokens tokens ['='] rest
            else attributeTokens others (previous ++ ['=']) rest
          | [] => attributeTokens [] ['='] rest
        else attributeTokens tokens (current ++ ['=']) rest
      else attributeTokens tokens (current ++ [c]) s
termination_by s => s.length
decreasing_by
  · have he := eq_of_hole? _h
    have hl := congrArg List.length he.1
    have hp := List.length_pos_iff.mpr he.2
    simp only [List.length_append] at hl
    omega
  all_goals
    have := Text.length_dropWhile_le isAsciiBlank s
    simp only [List.length_cons]
    omega

/-- The stored form of a value: a literal that is a hole is that hole, and references to other
literals are kept for later. -/
def storedValue (literals : LiteralTable) (token : Text) : Text :=
  match (Reference.index? Reference.literal token).bind fun n => literals[n]? with
  | some q => if (Hole.ofText? q.body).isSome then Text.trim q.body else literals.keep token
  | none => literals.keep token

/-- The key of a value that has none of its own: the last part of the path that it is. -/
def derivedKey (value : Text) : Text :=
  let path := match Hole.ofText? value with
    | some h => h.expr
    | none => value
  match Text.cutLast? '.' path with
  | some (_, last) => last
  | none => path

/-- The numbers of the next positional argument and of the last hole, and the set so far. -/
structure Reading where
  positions : Nat
  holes : Nat
  attrs : Attributes

def Reading.add (literals : LiteralTable) (r : Reading) (token : Text) : Reading :=
  if (Hole.ofText? token).isSome then
    { r with holes := r.holes + 1
             attrs := r.attrs.insert ('-' :: Text.ofNat (r.holes + 1)) token }
  else
    match Text.cut? ['='] token with
    | some (key, value) =>
      let value := storedValue literals value
      let key := if key.isEmpty then derivedKey value else literals.unquote key
      { r with attrs := r.attrs.insert key value }
    | none =>
      { r with positions := r.positions + 1
               attrs := r.attrs.insert (Attributes.position r.positions)
                 (storedValue literals token) }

/-- The attributes of a tag. There is no answer for a condition that cannot be split. The tail of a
condition is a list of operands and operators; that of any other tag is a list of `key=value` pairs,
values and holes. -/
def attributes? (literals : LiteralTable) (name tail : Text) : Option Attributes :=
  if isConditional name then
    (conditionTokens? tail).map fun tokens => Attributes.positional (tokens.map literals.keep)
  else
    some ((attributeTokens [] [] tail).foldl (Reading.add literals) ⟨0, 0, Attributes.empty⟩).attrs

end Stencil.Tag
