import Stencil.Text.Class

namespace Stencil.Expression

/-- How a place in an expression is nested: how many more brackets have opened than closed, and the
quote that is open, with or without a backslash just before. -/
structure Nesting where
  depth : Int
  quote : Option Char
  escaped : Bool
deriving Repr, DecidableEq

namespace Nesting

def start : Nesting := ⟨0, none, false⟩

def isTop (n : Nesting) : Bool := n.quote.isNone && n.depth == 0

/-- The nesting after a character. -/
def after (n : Nesting) (c : Char) : Nesting :=
  match n.quote with
  | some q =>
    if n.escaped then { n with escaped := false }
    else if c = '\\' then { n with escaped := true }
    else if c = q then { n with quote := none }
    else n
  | none =>
    if c = '\'' ∨ c = '"' ∨ c = '\x60' then { n with quote := some c }
    else if c = '[' then { n with depth := n.depth + 1 }
    else if c = ']' then { n with depth := n.depth - 1 }
    else n

end Nesting

/-- The part of an expression up to the first separator, and the parts after it. -/
def partsFrom (sep : Char) (n : Nesting) : Text → Text × List Text
  | [] => ([], [])
  | c :: s =>
    let more := partsFrom sep (n.after c) s
    if c = sep ∧ n.isTop then ([], more.1 :: more.2) else (c :: more.1, more.2)

/-- Cuts an expression at every separator outside quotes and brackets. -/
def parts (sep : Char) (s : Text) : List Text :=
  let p := partsFrom sep .start s
  p.1 :: p.2

theorem length_partsFrom_le (sep : Char) (n : Nesting) (s : Text) :
    (partsFrom sep n s).1.length ≤ s.length ∧
      ∀ p ∈ (partsFrom sep n s).2, p.length ≤ s.length := by
  induction s generalizing n with
  | nil => simp [partsFrom]
  | cons c s ih =>
    obtain ⟨h1, h2⟩ := ih (n.after c)
    unfold partsFrom
    dsimp only
    split
    · refine ⟨by simp, fun p hp => ?_⟩
      rcases List.mem_cons.mp hp with rfl | hp
      · exact Nat.le_succ_of_le h1
      · exact Nat.le_succ_of_le (h2 p hp)
    · exact ⟨by simpa using h1, fun p hp => Nat.le_succ_of_le (h2 p hp)⟩

theorem length_le_of_mem_parts {sep : Char} {s p : Text} (h : p ∈ parts sep s) :
    p.length ≤ s.length := by
  obtain ⟨h1, h2⟩ := length_partsFrom_le sep .start s
  rcases List.mem_cons.mp h with rfl | h
  · exact h1
  · exact h2 p h

def isBindingChar (c : Char) : Bool :=
  isAlphanumeric c || c == '_' || c == '-' || c == '$' || c == ':' || c == '.'

/-- Parts a binding `key=expr` into its key and its expression. A comparison is no binding. -/
def binding (s : Text) : Option Text × Text :=
  match Text.cut? ['='] s with
  | some (before, after) =>
    let key := Text.trim before
    if !key.isEmpty && key.all isBindingChar && after.head? ≠ some '=' then
      (some key, Text.trim after)
    else (none, Text.trim s)
  | none => (none, Text.trim s)

end Stencil.Expression
