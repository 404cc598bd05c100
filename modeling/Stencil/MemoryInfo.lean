import Stencil.Text.Basic

namespace Stencil.MemoryInfo

def label : Text := "MemAvailable:".toList

/-- Leaves out a label at the start of a text, as often as it stands there. -/
def dropLabels (s : Text) : Text :=
  match _h : Text.strip? label s with
  | some rest => dropLabels rest
  | none => s
termination_by s.length
decreasing_by
  have hl := congrArg List.length (Text.strip?_eq_some_iff.mp _h)
  simp only [List.length_append] at hl
  have : label.length = 13 := by decide
  omega

/-- Available memory in bytes, from the first line for it. Figures are in units of 1024 bytes, and
numbers have 64 bits. -/
def available? (report : Text) : Option Nat := do
  let line ← (Text.lines report).find? label.isPrefixOf
  let figure ← (Text.words (dropLabels line)).head?
  let n ← Text.toIndex? figure
  return n * 1024 % Text.indexBound

/-- Is less memory available than so many MiB? What a host does not report is enough. -/
def isShort (floorMb : Nat) (report : Text) : Bool :=
  (available? report).any fun bytes => bytes < floorMb * 1024 * 1024

end Stencil.MemoryInfo
