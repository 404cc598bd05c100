import Stencil.Hole
import Stencil.Placeholder

namespace Stencil

/-- A tag of a source. The tail is what stands between the name and the end, blanks at its ends and
a slash before the end left out. -/
structure Tag where
  closing : Bool
  name : Text
  tail : Text
  selfClosing : Bool
deriving Repr, DecidableEq

namespace Tag

def isConditional (name : Text) : Bool :=
  name = "_if".toList || name = "_elif".toList || name = "_else".toList

/-- Reads the hole at the start of a text up to its first two closing braces and a third one after
them, and gives the rest. -/
def hole? (s : Text) : Option (Text × Text) :=
  (Text.strip? ['{', '{'] s).bind fun inner =>
    (Text.cut? ['}', '}'] inner).map fun (inside, rest) =>
      let hole := ['{', '{'] ++ inside ++ ['}', '}']
      match rest with
      | '}' :: rest => (hole ++ ['}'], rest)
      | _ => (hole, rest)

theorem eq_of_hole? {s hole rest : Text} (h : hole? s = some (hole, rest)) :
    s = hole ++ rest ∧ hole ≠ [] := by
  obtain ⟨inner, hi, h⟩ := Option.bind_eq_some_iff.mp h
  obtain ⟨⟨inside, r⟩, hc, he⟩ := Option.map_eq_some_iff.mp h
  rw [Text.strip?_eq_some_iff.mp hi, Text.eq_of_cut? hc]
  dsimp only at he
  split at he <;> cases he <;> simp

/-- In a condition, is a `>` between the given character and the given text a comparison? It is if
an equals sign follows, or if there are blanks on both sides and more of the tag on the same
line. -/
def isComparison (previous : Char) (s : Text) : Bool :=
  match s with
  | '=' :: _ => true
  | c :: _ =>
    isAsciiBlank previous && (c == ' ' || c == '\t') &&
      ((s.dropWhile fun c => c == ' ' || c == '\t').head?.any fun c =>
        !(c == '<' || c == '\n' || c == '\r' || c == '>'))
  | [] => false

/-- In a condition, is a `<` before this text a comparison? -/
def isLess (s : Text) : Bool := s.head?.any fun c => c == '=' || c == ' ' || c == '\t'

/-- Cuts a text at the `>` that ends a tag, given the character before. Holes are passed over, and
in a condition comparisons are. A `<` that is no comparison makes the text no tag. -/
def tailEnd? (condition : Bool) (previous : Char) : Text → Option (Text × Text)
  | [] => none
  | c :: s =>
    match _h : hole? (c :: s) with
    | some (hole, rest) => (tailEnd? condition '}' rest).map fun (t, r) => (hole ++ t, r)
    | none =>
      if c = '<' ∧ ¬(condition ∧ isLess s) then none
      else if c = '>' ∧ ¬(condition ∧ isComparison previous s) then some ([], s)
      else (tailEnd? condition c s).map fun (t, r) => (c :: t, r)
termination_by s => s.length
decreasing_by
  · have he := eq_of_hole? _h
    have hl := congrArg List.length he.1
    have hp := List.length_pos_iff.mpr he.2
    simp only [List.length_append] at hl
    omega
  · simp

theorem length_of_tailEnd? {condition : Bool} {previous : Char} {s tail rest : Text}
    (h : tailEnd? condition previous s = some (tail, rest)) : rest.length < s.length := by
  fun_induction tailEnd? condition previous s generalizing tail rest with
  | case1 => simp at h
  | case2 previous c s hole r hh ih =>
    obtain ⟨⟨t, r'⟩, ht, he⟩ := Option.map_eq_some_iff.mp h
    cases he
    have hl := congrArg List.length (eq_of_hole? hh).1
    have := ih ht
    simp only [List.length_append] at hl
    omega
  | case3 => simp at h
  | case4 => cases Option.some.inj h; simp
  | case5 previous c s _ _ _ ih =>
    obtain ⟨⟨t, r'⟩, ht, he⟩ := Option.map_eq_some_iff.mp h
    cases he
    have := ih ht
    simp only [List.length_cons]
    omega

/-- Can a name end before this text? -/
def nameEnds (s : Text) : Bool :=
  s.head?.any fun c => c == '>' || c == '/' || c == ' ' || c == '\t' || c == '\n' || c == '\r'

/-- Reads the tag after its `<` and, in a closing tag, its slash, and gives the rest. -/
def body? (closing : Bool) (s : Text) : Option (Tag × Text) :=
  let name := s.takeWhile Placeholder.isNameChar
  let s := s.dropWhile Placeholder.isNameChar
  if name.isEmpty || !nameEnds s then none
  else
    (tailEnd? (isConditional name) 'a' s).map fun (tail, rest) =>
      let tail := Text.trimEnd tail
      match Text.dropEnding? ['/'] tail with
      | some tail => (⟨closing, name, Text.trim tail, true⟩, rest)
      | none => (⟨closing, name, Text.trim tail, false⟩, rest)

def read? (s : Text) : Option (Tag × Text) :=
  match s with
  | '<' :: '/' :: s => body? true s
  | '<' :: s => body? false s
  | _ => none

theorem length_of_body? {closing : Bool} {s rest : Text} {tag : Tag}
    (h : body? closing s = some (tag, rest)) : rest.length < s.length := by
  unfold body? at h
  dsimp only at h
  split at h
  next => simp at h
  next =>
    obtain ⟨⟨tail, r⟩, ht, he⟩ := Option.map_eq_some_iff.mp h
    have hl := length_of_tailEnd? ht
    have := Text.length_dropWhile_le Placeholder.isNameChar s
    dsimp only at he
    split at he <;> cases he <;> omega

theorem length_of_read? {s rest : Text} {tag : Tag} (h : read? s = some (tag, rest)) :
    rest.length < s.length := by
  unfold read? at h
  split at h
  next => have := length_of_body? h; simp only [List.length_cons]; omega
  next => have := length_of_body? h; simp only [List.length_cons]; omega
  next => simp at h

end Tag

end Stencil
