import Stencil.Expression.Split
import Stencil.Literal.Table
import Stencil.Value.Text

namespace Stencil

mutual

/-- One alternative of an expression. -/
inductive Alternative where
  | literal (v : Value)
  | path (root : Text) (steps : List PathStep)

/-- One step of a path. A character that is neither a point nor a bracket leads nowhere. -/
inductive PathStep where
  | name (name : Text)
  | index (alternatives : List Alternative)
  | nowhere

end

/-- An expression: alternatives, each of which is a literal or a path into the scope. -/
abbrev Expression := List Alternative

namespace Expression

def startsNumber (s : Text) : Bool :=
  let s := (Text.strip? ['-'] s).getD s
  match s with
  | '.' :: c :: _ => c.isDigit
  | c :: _ => c.isDigit
  | [] => false

def number? (s : Text) : Option Value :=
  if startsNumber s then
    ((Text.toInt64? s).map Value.int).or ((Binary64.ofText? s).map Value.float)
  else none

def quoted? (s : Text) : Option Value :=
  match s with
  | q :: inner =>
    if (q = '\'' ∨ q = '"' ∨ q = '\x60') ∧ inner.getLast? = some q then
      some (.str (Quoted.unescape inner.dropLast))
    else none
  | [] => none

def named? (s : Text) : Option Value :=
  if s = "true".toList then some (.bool true)
  else if s = "false".toList then some (.bool false)
  else if s = "null".toList ∨ s = "nil".toList then some .null
  else none

/-- Reads a literal: nothing at all, a reference to a literal of the source, a quoted text, the name
of a value, or a number. -/
def literal? (table : LiteralTable) (s : Text) : Option Value :=
  let s := Text.trim s
  if s.isEmpty then some .null
  else
    match Reference.index? Reference.kept s with
    | some n => some (.str ((table[n]?.map Quoted.value).getD []))
    | none => quoted? s <|> named? s <|> number? s

/-- Is this a literal that refers to no table? -/
def isLiteral (s : Text) : Bool := (literal? [] s).isSome

def startsStep (c : Char) : Bool := c == '.' || c == '['

/-- Cuts a text at the bracket that closes one before it, or at its end. -/
def closeBracket (depth : Nat) : Text → Text × Text
  | [] => ([], [])
  | c :: s =>
    if c = ']' ∧ depth = 0 then ([], s)
    else
      let depth := if c = '[' then depth + 1 else if c = ']' then depth - 1 else depth
      let (inside, rest) := closeBracket depth s
      (c :: inside, rest)

theorem length_closeBracket_le (depth : Nat) (s : Text) :
    (closeBracket depth s).1.length ≤ s.length ∧ (closeBracket depth s).2.length ≤ s.length := by
  induction s generalizing depth with
  | nil => simp [closeBracket]
  | cons c s ih =>
    unfold closeBracket
    split
    · simp
    · have := ih (if c = '[' then depth + 1 else if c = ']' then depth - 1 else depth)
      simp only [List.length_cons]
      omega

theorem length_trim_le (s : Text) : (Text.trim s).length ≤ s.length := by
  have h1 := Text.length_dropWhile_le isWhiteSpace s
  have h2 := Text.length_dropWhile_le isWhiteSpace (s.dropWhile isWhiteSpace).reverse
  simp only [Text.trim, Text.trimEnd, Text.dropEndWhile, Text.trimStart, List.length_reverse]
    at h2 ⊢
  omega

mutual

def read (table : LiteralTable) (s : Text) : Expression :=
  (parts '|' s).attach.map fun ⟨part, _h⟩ =>
    let atom := Text.trim part
    match literal? table atom with
    | some v => .literal v
    | none =>
      .path (atom.takeWhile fun c => !startsStep c)
        (readSteps table (atom.dropWhile fun c => !startsStep c))
termination_by 2 * s.length + 1
decreasing_by
  have h1 := length_le_of_mem_parts _h
  have h2 := length_trim_le part
  have h3 := Text.length_dropWhile_le (fun c => !startsStep c) (Text.trim part)
  omega

def readSteps (table : LiteralTable) (s : Text) : List PathStep :=
  match s with
  | [] => []
  | c :: s =>
    if c = '.' then
      .name (s.takeWhile fun c => !startsStep c) ::
        readSteps table (s.dropWhile fun c => !startsStep c)
    else if c = '[' then
      .index (read table (closeBracket 0 s).1) :: readSteps table (closeBracket 0 s).2
    else [.nowhere]
termination_by 2 * s.length
decreasing_by
  · have := Text.length_dropWhile_le (fun c => !startsStep c) s
    simp only [List.length_cons]
    omega
  · have := length_closeBracket_le 0 s
    simp only [List.length_cons]
    omega
  · have := length_closeBracket_le 0 s
    simp only [List.length_cons]
    omega

end

end Expression

end Stencil
