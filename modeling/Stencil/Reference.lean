import Stencil.Marker
import Stencil.Text.Class

namespace Stencil.Reference

/-- The lead of a reference to a literal: `%!s3!%` stands for the literal with number 3, `%!3!%` for
the same inside a value that is kept for later, and `%!v3!%` for a fragment of finished output. -/
def literal : Text := ['%', '!', 's']

/-- The lead of a reference to a literal that is kept for later. -/
def kept : Text := ['%', '!']

def fragment : Text := ['%', '!', 'v']

def write (lead : Text) (n : Nat) : Text := lead ++ Text.ofNat n ++ Marker.closing

/-- Reads a reference at the start of a text: its digits, and the rest. -/
def digits? (lead s : Text) : Option (Text × Text) :=
  (Text.strip? lead s).bind fun s =>
    if (s.takeWhile isDecimalDigit).isEmpty then none
    else (Text.strip? Marker.closing (s.dropWhile isDecimalDigit)).map fun rest =>
      (s.takeWhile isDecimalDigit, rest)

theorem eq_of_digits? {lead s digits rest : Text} (h : digits? lead s = some (digits, rest)) :
    s = lead ++ digits ++ Marker.closing ++ rest := by
  obtain ⟨s', hs, h⟩ := Option.bind_eq_some_iff.mp h
  split at h
  next => simp at h
  next =>
    obtain ⟨r, hr, he⟩ := Option.map_eq_some_iff.mp h
    cases he
    rw [Text.strip?_eq_some_iff.mp hs]
    simp [← Text.strip?_eq_some_iff.mp hr]

/-- Replaces every reference with the given lead by what its digits stand for. A reference that
stands for nothing stays as it is. -/
def substitute (lead : Text) (meaning : Text → Option Text) : Text → Text
  | [] => []
  | c :: s =>
    match _h : digits? lead (c :: s) with
    | some (digits, rest) =>
      (meaning digits).getD (lead ++ digits ++ Marker.closing) ++ substitute lead meaning rest
    | none => c :: substitute lead meaning s
termination_by s => s.length
decreasing_by
  · have hl := congrArg List.length (eq_of_digits? _h)
    simp only [List.length_append, Marker.closing, List.length_cons, List.length_nil] at hl
    simp only [List.length_cons]
    omega
  · simp

/-- The number of a text that is a reference and nothing else. Here the number may have a plus
sign. -/
def index? (lead atom : Text) : Option Nat := do
  let inner ← Text.strip? lead atom
  let digits ← Text.dropEnding? Marker.closing inner
  Text.toIndex? digits

end Stencil.Reference
