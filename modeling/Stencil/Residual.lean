import Stencil.Codec.Payload
import Stencil.Placeholder

namespace Stencil.Residual

/-- The sign that opens a residual block: a tag that a precompiled template keeps for the rendering,
compressed, so that nothing before the rendering looks into it. -/
def opening : Text := "%!fn:".toList

def closing : Text := ['!', '%']

def write (block : Text) : Text := opening ++ Payload.ofText block ++ closing

/-- A text as what stands outside residual blocks, on the left, and payloads, on the right. A block
that is not closed is no block. -/
def pieces (s : Text) : List (Text ⊕ Text) :=
  match _h : Text.cut? opening s with
  | none => [.inl s]
  | some (before, inner) =>
    match _h' : Text.cut? closing inner with
    | none => [.inl s]
    | some (payload, rest) => .inl before :: .inr payload :: pieces rest
termination_by s.length
decreasing_by
  have h1 := Text.length_of_cut? _h
  have h2 := Text.length_of_cut? _h'
  simp only [closing, List.length_cons, List.length_nil] at h2
  omega

/-- The block in a payload, if it can be read. -/
def block? (payload : Text) : Option Text := (Payload.toText payload).toOption

def depth (block : Text) : Nat := ((Placeholder.read? block).map fun r => r.1.depth).getD 0

end Stencil.Residual
