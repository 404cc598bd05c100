import Stencil.Placeholder

namespace Stencil

/-- A node: text, a tag with its content and as it is written, a mark between branches that belongs
to no condition, or a tag that is never closed. Tags of other depths are part of the text, or of the
content of a tag. -/
inductive Node where
  | text (s : Text)
  | tag (p : Placeholder) (content : Option Text) (source : Text)
  | stray (p : Placeholder)
  | unclosed (source : Text)
deriving Repr, DecidableEq

namespace Node

/-- The node that a placeholder makes, given the text after it, and the text after the node. -/
def ofFound (f : Placeholder.Found) : Node × Text :=
  let p := f.placeholder
  if p.kind = .alone then
    if Placeholder.isBranchMark p.name then (stray p, f.after) else (tag p none f.source, f.after)
  else
    match Placeholder.cutCloser? p.name p.depth f.after with
    | some (content, rest) =>
      (tag p (some content) (f.source ++ content ++ Placeholder.closer p.name p.depth), rest)
    | none => (unclosed f.source, f.after)

theorem length_ofFound_le (f : Placeholder.Found) : (ofFound f).2.length ≤ f.after.length := by
  unfold ofFound
  dsimp only
  split
  · split <;> simp
  · split
    next content rest h =>
      have := Text.length_of_cut? h
      dsimp only
      omega
    next => simp

/-- The nodes of a text at a level, when some text stands before it. -/
def listFrom (level : Nat) (before s : Text) : List Node :=
  match _h : Placeholder.next? s with
  | none => [text (before ++ s)]
  | some f =>
    if f.placeholder.depth ≠ level ∨ f.placeholder.kind = .closes then
      listFrom level (before ++ f.before ++ f.source) f.after
    else
      text (before ++ f.before) :: (ofFound f).1 :: listFrom level [] (ofFound f).2
termination_by s.length
decreasing_by
  · exact Placeholder.length_of_next? _h
  · have h1 := Placeholder.length_of_next? _h
    have h2 := length_ofFound_le f
    omega

def list (level : Nat) (s : Text) : List Node := listFrom level [] s

end Node

/-- A branch of a condition: none for the last one that needs no condition, or the index of the
attributes of its condition, if the tag has some. -/
structure Branch where
  condition : Option (Option Nat)
  body : Text
deriving Repr, DecidableEq

namespace Branch

/-- What a mark between branches says of the branch after it. -/
def mark? (p : Placeholder) : Option (Option (Option Nat)) :=
  if p.name = "_elif".toList then some (some p.attrs)
  else if p.name = "_else".toList then some none
  else none

/-- The branches of the content of a condition, whose marks are at a depth. The first branch has the
given condition, and some text of it stands before. -/
def listFrom (depth : Nat) (condition : Option (Option Nat)) (before s : Text) : List Branch :=
  match _h : Placeholder.next? s with
  | none => [⟨condition, before ++ s⟩]
  | some f =>
    let mark := if f.placeholder.depth = depth ∧ f.placeholder.kind = .alone then
        mark? f.placeholder
      else none
    match mark with
    | some next => ⟨condition, before ++ f.before⟩ :: listFrom depth next [] f.after
    | none => listFrom depth condition (before ++ f.before ++ f.source) f.after
termination_by s.length
decreasing_by
  all_goals exact Placeholder.length_of_next? _h

def list (depth : Nat) (first : Option Nat) (content : Text) : List Branch :=
  listFrom depth (some first) [] content

end Branch

end Stencil
