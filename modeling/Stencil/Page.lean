import Stencil.Layout
import Stencil.Render.Walk

namespace Stencil.Page

variable {σ : Type}

def start {α : Type} (r : Rendering σ α) : StateM (World σ) (α × Fragments × List Attributes) :=
  fun world =>
    let (a, p) := r ⟨.empty, [], world⟩
    ((a, p.fragments, p.added), p.world)

/-- The layout with a name, unless it is the page itself. -/
def layout? (site : Site σ) (template : Template) (name : Option Text) :
    StateM (World σ) (Option Template) := do
  match (name.map Text.trim).filter fun n => !n.isEmpty with
  | none => return none
  | some name => return (← site.load .layout name).filter fun l => l.path ≠ template.path

/-- Puts a rendered page together, with its layout if it has one. -/
def finish (site : Site σ) (scope : Scope) (fragments : Fragments) (page : Text)
    (layout : Option Text) : Text :=
  let page := fragments.assemble page
  let merged := match layout with
    | some l => Layout.merge (fragments.assemble l) page
    | none => page
  Video.inject (Layout.injectPublic (Marker.decode merged) scope) site.assets

/-- A template rendered into its layout. The two are rendered side by side when a page is made; here
one comes after the other, which makes no difference to a page without random choices. -/
def compile (site : Site σ) (template : Template) (scope : Scope) (layout : Option Text) :
    StateM (World σ) Text := do
  let layout ← layout? site template layout
  let ((page, layout), fragments, _) ← start do
    let page ← Rendering.template (.root site .late template) scope
    let layout ← layout.mapM fun l => Rendering.template (.root site .late l) scope
    return (page, layout)
  return finish site scope fragments page layout

/-- Folds a template against constant data: what is left of its text, and the table of attributes
that it then needs. -/
def fold (site : Site σ) (template : Template) (constants : Scope) :
    StateM (World σ) (Text × List Attributes) := do
  let frame := Frame.root site (.early template.attrs.length) template
  let (html, _, added) ← start (Rendering.template frame constants)
  return (html, template.attrs ++ added)

end Stencil.Page
