import Stencil.Tag.Attributes

namespace Stencil

/-- A text with placeholders, and the table of their attributes. `_elif` and `_else` stand alone in
it, at the depth of what is inside the `_if` around them. -/
structure Normalized where
  html : Text
  attrs : List Attributes
deriving Repr, DecidableEq

namespace Normalized

/-- The marker of the place where the page goes into its layout. -/
def bodyMarker : Text := "<BODY/>".toList

/-- What becomes of a tag at a depth, when the table has so many sets: nothing, or a text, the depth
after it and the attributes that it adds to the table. The outer answer is missing if the attributes
cannot be read. -/
def placeTag? (literals : LiteralTable) (depth count : Nat) (tag : Tag) :
    Option (Option (Text × Nat × Option Attributes)) :=
  if tag.name.head? = some '!' then some none
  else if tag.selfClosing && !tag.closing && Text.eqIgnoringCase tag.name "body".toList then
    some (some (bodyMarker, depth, none))
  else if !Placeholder.isSpecialName tag.name then some none
  else if tag.closing then
    match depth with
    | 0 => some none
    | d + 1 => some (some (Placeholder.closer tag.name d, d, none))
  else
    (Tag.attributes? literals tag.name tag.tail).map fun attrs =>
      let added := if attrs.isEmpty then none else some attrs
      let index := added.map fun _ => count
      if tag.selfClosing || Placeholder.isBranchMark tag.name then
        some ((⟨tag.name, depth, index, .alone⟩ : Placeholder).written, depth, added)
      else
        some ((⟨tag.name, depth, index, .opens⟩ : Placeholder).written, depth + 1, added)

/-- Normalizes a text that stands at a depth, when the table has so many sets already. -/
def go? (literals : LiteralTable) (depth count : Nat) : Text → Option Normalized
  | [] => some ⟨[], []⟩
  | c :: s =>
    match _h : Tag.read? (c :: s) with
    | none => (go? literals depth count s).map fun n => { n with html := c :: n.html }
    | some (tag, rest) =>
      match placeTag? literals depth count tag with
      | none => none
      | some none => (go? literals depth count s).map fun n => { n with html := c :: n.html }
      | some (some (text, depth, added)) =>
        (go? literals depth (count + added.toList.length) rest).map fun n =>
          ⟨text ++ n.html, added.toList ++ n.attrs⟩
termination_by s => s.length
decreasing_by
  · simp
  · simp
  · exact Tag.length_of_read? _h

/-- Normalizes a source whose comments, literals and blocks have been taken out. There is no answer
if a condition of it cannot be split into tokens. -/
def ofText? (literals : LiteralTable) (s : Text) : Option Normalized := go? literals 0 0 s

end Normalized

end Stencil
