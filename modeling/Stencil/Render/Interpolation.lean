import Stencil.InlineTag
import Stencil.Render.Basic

namespace Stencil.Rendering

variable {σ : Type}

/-- Fills a hole inside a tag. An attribute without a value is left out. -/
def attributeHole (frame : Frame σ) (r : Resolver) (h : Hole) : Rendering σ (Option Text) := do
  let (key, expr) := Expression.binding h.expr
  match r.text? expr, key with
  | none, _ => return none
  | some value, some key =>
    if value.isEmpty then return some []
    else return some (← emit frame (key ++ ['=', '"'] ++ Escape.attributeValue value ++ ['"']))
  | some value, none =>
    return some (← emit frame (if h.raw then value else Escape.attributeValue value))

/-- Fills a hole between tags. The body that a template was called with is put in as it is. -/
def textHole (frame : Frame σ) (r : Resolver) (h : Hole) : Rendering σ (Option Text) := do
  let (_, expr) := Expression.binding h.expr
  if frame.body.isSome ∧ expr = "body".toList then return frame.body
  else
    match r.text? expr with
    | none => return none
    | some value =>
      if frame.body = some value then return some value
      else return some (← emit frame (if h.raw then value else Escape.runningText value))

def interpolate (frame : Frame σ) (scope : Scope) (s : Text) : Rendering σ Text := do
  let r := frame.resolver scope
  let s ← InlineTag.fillM (attributeHole frame r) s
  Hole.fillM (textHole frame r) s

end Stencil.Rendering
