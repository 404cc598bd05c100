import Stencil.Loop.Basic

namespace Stencil.Loop

def isNameChar (c : Char) : Bool := c.isAlpha || c.isDigit || c == '_'

/-- The names after points at the start of a text, and the rest. -/
def fields (s : Text) : Text × Text :=
  match s with
  | '.' :: c :: s =>
    if isNameChar c then
      let more := fields (s.dropWhile isNameChar)
      ('.' :: c :: s.takeWhile isNameChar ++ more.1, more.2)
    else ([], '.' :: c :: s)
  | s => ([], s)
termination_by s.length
decreasing_by
  have := Text.length_dropWhile_le isNameChar s
  simp only [List.length_cons]
  omega

theorem length_fields_le (s : Text) : (fields s).2.length ≤ s.length := by
  fun_induction fields s with
  | case1 c s _ more ih =>
    have := Text.length_dropWhile_le isNameChar s
    simp only [more, List.length_cons]
    omega
  | case2 => simp
  | case3 => simp

/-- The signs that close what a text starts with, if it starts with a hole or a tag. -/
def skipped? : Text → Option Text
  | '{' :: '{' :: _ => some ['}', '}']
  | '<' :: _ => some ['>']
  | _ => none

/-- Writes out the shorthand for some names, in a text that follows a character. -/
def expandAfter (names : List Text) (before : Option Char) : Text → Text
  | [] => []
  | c :: s =>
    match skipped? (c :: s) with
    | some close =>
      match _h : Text.cut? close (c :: s) with
      | some (inside, rest) =>
        if _hc : close = [] then c :: s
        else inside ++ close ++ expandAfter names close.getLast? rest
      | none => c :: s
    | none =>
      if c = '$' ∧ !before.any isNameChar then
        let name := s.takeWhile isNameChar
        let rest := s.dropWhile isNameChar
        if name ∈ names then
          let f := fields rest
          ['{', '{'] ++ name ++ f.1 ++ ['}', '}'] ++
            expandAfter names (c :: name ++ f.1).getLast? f.2
        else c :: name ++ expandAfter names (c :: name).getLast? rest
      else c :: expandAfter names (some c) s
termination_by s => s.length
decreasing_by
  · have := Text.length_of_cut? _h
    have := List.length_pos_iff.mpr _hc
    omega
  · have h1 := length_fields_le (s.dropWhile isNameChar)
    have h2 := Text.length_dropWhile_le isNameChar s
    simp only [List.length_cons]
    omega
  · have := Text.length_dropWhile_le isNameChar s
    simp only [List.length_cons]
    omega
  · simp

def expand (l : Loop) (body : Text) : Text := expandAfter l.names none body

end Stencil.Loop
