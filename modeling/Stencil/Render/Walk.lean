import Stencil.Render.Component
import Stencil.Render.Interpolation

namespace Stencil.Rendering

variable {σ : Type}

/-- Templates nested deeper than this put nothing out. -/
def maxDepth : Nat := 64

/-- The ways from a text to other texts: into a residual block, and into the template that a tag
calls, unless templates are nested too deep. Each way down is bounded: a text has no more levels
than angle brackets, residual blocks are nested no deeper than the host says, and templates no
deeper than `maxDepth`. -/
structure Ways (σ : Type) where
  block : Frame σ → Text → Scope → Rendering σ Output
  template : Option (Frame σ → Scope → Rendering σ Text)

/-- Renders a piece of text: running text, or a residual block. A block that cannot be read puts
nothing out. -/
def piece (ways : Ways σ) (frame : Frame σ) (p : Text ⊕ Text) (scope : Scope) :
    Rendering σ Output := do
  match p with
  | .inl s => put scope (← interpolate frame scope s)
  | .inr payload =>
    match Residual.block? payload with
    | some block => ways.block frame block scope
    | none => put scope []

/-- Renders text between tags. In the early pass residual blocks stay as they are. -/
def text (ways : Ways σ) (frame : Frame σ) (s : Text) (scope : Scope) : Rendering σ Output := do
  if frame.pass.isEarly then put scope (← interpolate frame scope s)
  else inTurn (piece ways frame) (Residual.pieces s) scope

/-- Renders a tag whose content is rendered by the given function. -/
def tag (ways : Ways σ) (frame : Frame σ) (child : Text → Scope → Rendering σ Output) (level : Nat)
    (p : Placeholder) (content : Option Text) (source : Text) (scope : Scope) :
    Rendering σ Output :=
  let attrs := frame.template.attributes p.attrs
  match TagRole.ofName p.name with
  | .condition => condition frame child p (content.getD []) level scope
  | .loop => loop frame child attrs (content.getD []) source scope
  | .imports name => component frame child ways.template .imported name attrs content source scope
  | .component name =>
    component frame child ways.template .component name attrs content source scope
  | .assignment => assignment frame attrs source scope
  | .randomWord => randomWord frame attrs source scope
  | .function name => function frame name attrs content source scope

def node (ways : Ways σ) (frame : Frame σ) (child : Text → Scope → Rendering σ Output) (level : Nat)
    (n : Node) (scope : Scope) : Rendering σ Output :=
  match n with
  | .text s => text ways frame s scope
  | .tag p content source => tag ways frame child level p content source scope
  | .stray _ => put scope []
  | .unclosed source => put scope source

def levels (ways : Ways σ) (frame : Frame σ) : Nat → Nat → Text → Scope → Rendering σ Output
  | 0, _, _, scope => put scope []
  | n + 1, level, s, scope =>
    inTurn (node ways frame (levels ways frame n (level + 1)) level) (Node.list level s) scope

def whole (ways : Ways σ) (frame : Frame σ) (level : Nat) (s : Text) (scope : Scope) :
    Rendering σ Output :=
  levels ways frame (s.count '<' + 1) level s scope

/-- Renders a text in which residual blocks may be nested so deep. -/
def blocks (template : Option (Frame σ → Scope → Rendering σ Text)) :
    Nat → Frame σ → Nat → Text → Scope → Rendering σ Output
  | 0 => whole ⟨fun _ _ scope => put scope [], template⟩
  | n + 1 =>
    whole ⟨fun frame block scope => blocks template n frame (Residual.depth block) block scope,
      template⟩

/-- Renders the template of a frame, given the way into the templates that it calls. -/
def templateWith (template : Option (Frame σ → Scope → Rendering σ Text)) (frame : Frame σ)
    (scope : Scope) : Rendering σ Text := do
  let (out, _) ← blocks template frame.site.maxBlocks frame 0 frame.template.html scope
  if frame.pass.isEarly then return out else restore frame out

/-- Renders the template of a frame in which templates may be nested so deep. -/
def nested : Nat → Frame σ → Scope → Rendering σ Text
  | 0 => templateWith none
  | n + 1 => templateWith (some (nested n))

def template (frame : Frame σ) (scope : Scope) : Rendering σ Text := nested maxDepth frame scope

end Stencil.Rendering
