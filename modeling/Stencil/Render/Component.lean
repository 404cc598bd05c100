import Stencil.Render.Tag

namespace Stencil.Rendering

variable {σ : Type}

def forbidsImports (attrs : Attributes) : Bool :=
  attrs.contains "_noimport".toList || attrs.args.contains "_noimport".toList

/-- Are imports allowed here? The scope must say so, and no caller may forbid it. -/
def allowsImports (frame : Frame σ) (scope : Scope) : Bool :=
  frame.mayImport && (Dictionary.get? scope "allowImport".toList).any Value.isTruthy

/-- Gives a scope what a hole that stands alone in a tag names: all entries of a dictionary, or the
value under its last name. -/
def spread (r : Resolver) (scope : Scope) (raw : Text) : Scope :=
  match Hole.ofText? raw with
  | none => scope
  | some h =>
    let (key, expr) := Expression.binding h.expr
    match key, (r.value expr).value with
    | some key, v => Dictionary.insert scope key v
    | none, .map entries => Dictionary.insertAll scope entries
    | none, v => Dictionary.insert scope (((Text.splitOn ['.'] expr).getLast?).getD expr) v

def arguments (r : Resolver) (attrs : Attributes) : Scope :=
  attrs.spreads.foldl (spread r)
    (Dictionary.insertAll r.scope (attrs.named.map fun e => (e.1, attributeValue r e.2)))

/-- The scope with the body of a call under its name, or without one. -/
def bindBody (scope : Scope) : Option Text → Scope
  | some reference => Dictionary.insert scope "body".toList (.str reference)
  | none => Dictionary.erase scope "body".toList

/-- Renders the content of a call in the scope of the caller, as a fragment. -/
def slot (frame : Frame σ) (child : Text → Scope → Rendering σ Output) (scope : Scope)
    (content : Text) : Rendering σ Text := do
  let (body, _) ← child content scope
  stash (← restore frame body)

/-- Renders the template that a tag calls. In the early pass the tag stays; it puts nothing out if
templates are nested too deep, or if there is no such template. -/
def component (frame : Frame σ) (child : Text → Scope → Rendering σ Output)
    (inner : Option (Frame σ → Scope → Rendering σ Text)) (kind : TemplateKind) (name : Text)
    (attrs : Attributes) (content : Option Text) (source : Text) (scope : Scope) :
    Rendering σ Output := do
  if frame.pass.isEarly then put scope source
  else
    match inner with
    | none => put scope []
    | some inner =>
      if kind = .imported ∧ !allowsImports frame scope then put scope []
      else
        match ← load frame kind name with
        | none => put scope []
        | some template =>
          let given := arguments (frame.resolver scope) attrs
          let body ← content.mapM (slot frame child scope)
          let html ← inner
            { frame with template, body, mayImport := frame.mayImport && !forbidsImports attrs }
            (bindBody given body)
          put scope (← stash html)

end Stencil.Rendering
