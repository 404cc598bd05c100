import Stencil.Literal.Table

namespace Stencil

/-- A hole: is it raw, and what stands between its braces. -/
structure Hole where
  raw : Bool
  inner : Text
deriving Repr, DecidableEq

namespace Hole

def opening (raw : Bool) : Text := if raw then ['{', '{', '{'] else ['{', '{']

def closing (raw : Bool) : Text := if raw then ['}', '}', '}'] else ['}', '}']

def expr (h : Hole) : Text := Text.trim h.inner

def written (h : Hole) : Text := opening h.raw ++ h.inner ++ closing h.raw

/-- The hole at the start of a text, and the rest; `some none` if it opens and never closes. -/
def lead? (s : Text) : Option (Option (Hole × Text)) := do
  let inner ← Text.strip? (opening false) s
  match Text.strip? (opening true) s with
  | some inner => return (Text.cut? (closing true) inner).map fun (i, rest) => (⟨true, i⟩, rest)
  | none => return (Text.cut? (closing false) inner).map fun (i, rest) => (⟨false, i⟩, rest)

theorem eq_of_lead? {s rest : Text} {h : Hole} (hl : lead? s = some (some (h, rest))) :
    s = h.written ++ rest := by
  simp only [lead?, Option.bind_eq_bind, Option.bind_eq_some_iff] at hl
  obtain ⟨inner, hi, hl⟩ := hl
  split at hl
  next inner' ht =>
    obtain ⟨⟨i, r⟩, hc, he⟩ := Option.map_eq_some_iff.mp (Option.some.inj hl)
    cases he
    simp [Text.strip?_eq_some_iff.mp ht, Text.eq_of_cut? hc, written]
  next =>
    obtain ⟨⟨i, r⟩, hc, he⟩ := Option.map_eq_some_iff.mp (Option.some.inj hl)
    cases he
    simp [Text.strip?_eq_some_iff.mp hi, Text.eq_of_cut? hc, written]

/-- A part of a text: a character outside holes, or a hole. -/
abbrev Piece := Char ⊕ Hole

/-- The pieces of a text. From a hole that never closes on, there are no more holes. -/
def pieces : Text → List Piece
  | [] => []
  | c :: s =>
    match _h : lead? (c :: s) with
    | some (some (h, rest)) => .inr h :: pieces rest
    | some none => (c :: s).map .inl
    | none => .inl c :: pieces s
termination_by s => s.length
decreasing_by
  · have hl := congrArg List.length (eq_of_lead? _h)
    simp only [List.length_append, written, opening, List.length_cons] at hl ⊢
    split at hl <;> simp only [List.length_cons, List.length_nil] at hl <;> omega
  · simp

def holes (s : Text) : List Hole := (pieces s).filterMap Sum.getRight?

/-- Writes pieces, a hole by the given function; a hole for which it gives nothing stays. -/
def writePieces (fill : Hole → Option Text) (ps : List Piece) : Text :=
  ps.flatMap fun
    | .inl c => [c]
    | .inr h => (fill h).getD h.written

def fill (f : Hole → Option Text) (s : Text) : Text := writePieces f (pieces s)

def fillM {m : Type → Type} [Monad m] (f : Hole → m (Option Text)) (s : Text) : m Text :=
  return (← (pieces s).mapM fun
    | .inl c => pure [c]
    | .inr h => return (← f h).getD h.written).flatten

/-- Writes the expression of every hole without blanks around it, and marks the references to
literals in it as kept for later. -/
def preserve (table : LiteralTable) (s : Text) : Text :=
  fill (fun h => some (written ⟨h.raw, table.keep h.expr⟩)) s

/-- Reads a text that opens with braces and ends with as many, blanks around it aside. -/
def ofText? (s : Text) : Option Hole :=
  let enclosed (raw : Bool) : Option Hole :=
    (Text.strip? (opening raw) (Text.trim s)).bind fun inner =>
      (Text.dropEnding? (closing raw) inner).map fun inner => ⟨raw, inner⟩
  (enclosed true).or (enclosed false)

end Hole

end Stencil
