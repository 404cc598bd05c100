import Stencil.Fragments
import Stencil.Function.Registry
import Stencil.Template

namespace Stencil

/-- The reasons for which a template is looked up by name. -/
inductive TemplateKind where
  | component
  | imported
  | layout
deriving Repr, DecidableEq

/-- What renderings share: where templates come from, and random words that are not drawn yet. -/
structure World (σ : Type) where
  source : σ
  words : List UInt32

/-- A random choice. There is none if the words are used up. -/
def World.draw {σ α : Type} (r : Random α) : StateM (World σ) (Option α) := fun world =>
  match r.run world.words with
  | some (a, words) => (some a, { world with words })
  | none => (none, world)

/-- What a host gives to its templates: functions, what is done with scripts and style sheets, who
knows about videos, where the files of its assets are, and how deep residual blocks may be nested in
each other. Blocks that are nested deeper put nothing out. -/
structure Host where
  functions : Registry
  hooks : Hooks
  videos : Option VideoProvider
  assets : Text
  maxBlocks : Nat

/-- A host with templates that others can call. -/
structure Site (σ : Type) extends Host where
  load : TemplateKind → Text → StateM (World σ) (Option Template)

/-- The passes: the early one, over a template whose table has so many sets of attributes, and the
late one. The early one has only constant data: what it can decide stands in the template
afterwards, the rest is kept. The late one has all data and leaves fragments behind. -/
inductive Pass where
  | early (tableSize : Nat)
  | late
deriving Repr, DecidableEq

def Pass.isEarly : Pass → Bool
  | early _ => true
  | late => false

/-- A template that is being rendered: for which site, in which pass, with which fragment in the
place of its body, and whether imports are allowed in it. -/
structure Frame (σ : Type) where
  site : Site σ
  pass : Pass
  template : Template
  body : Option Text
  mayImport : Bool

namespace Frame

variable {σ : Type}

def root (site : Site σ) (pass : Pass) (template : Template) : Frame σ :=
  ⟨site, pass, template, none, true⟩

def resolver (f : Frame σ) (scope : Scope) : Resolver :=
  ⟨scope, f.template.literals, f.pass.isEarly⟩

end Frame

/-- How far a rendering is: its fragments, the sets of attributes that it has added to the table of
its template, and the world. -/
structure Progress (σ : Type) where
  fragments : Fragments
  added : List Attributes
  world : World σ

abbrev Rendering (σ : Type) := StateM (Progress σ)

namespace Rendering

variable {σ : Type}

/-- Adds a fragment, and gives the reference that stands for it. -/
def stash (fragment : Text) : Rendering σ Text := fun p =>
  let (reference, fragments) := p.fragments.stash fragment
  (reference, { p with fragments })

/-- Puts out a finished text: in the early pass so that it stays as it is in the template, in the
late one as a fragment. -/
def emit (frame : Frame σ) (html : Text) : Rendering σ Text :=
  if frame.pass.isEarly then return Marker.shield html else stash (Marker.encode html)

/-- Adds a set of attributes to the table of the template, and gives its index. -/
def addAttributes (frame : Frame σ) (attrs : Attributes) : Rendering σ Nat := fun p =>
  let size := match frame.pass with
    | .early size => size
    | .late => 0
  (size + p.added.length, { p with added := p.added ++ [attrs] })

def onWorld {α : Type} (act : StateM (World σ) α) : Rendering σ α := fun p =>
  let (a, world) := act p.world
  (a, { p with world })

/-- A random choice. There is none if the words are used up. -/
def draw {α : Type} (r : Random α) : Rendering σ (Option α) := onWorld (World.draw r)

def load (frame : Frame σ) (kind : TemplateKind) (name : Text) : Rendering σ (Option Template) :=
  onWorld (frame.site.load kind name)

/-- Puts the blocks and the literals of a template back into a rendered text. -/
def restore (frame : Frame σ) (s : Text) : Rendering σ Text := do
  let s ← Block.reinjectM frame.site.hooks frame.template.blocks stash s
  return frame.template.literals.requoteKept s

/-- What a rendering puts out, and the scope after it. -/
abbrev Output := Text × Scope

def put (scope : Scope) (s : Text) : Rendering σ Output := return (s, scope)

/-- Renders items one after the other, each in the scope that the one before leaves. -/
def inTurn {α : Type} (render : α → Scope → Rendering σ Output) :
    List α → Scope → Rendering σ Output
  | [], scope => put scope []
  | a :: more, scope => do
    let (first, scope) ← render a scope
    let (rest, scope) ← inTurn render more scope
    return (first ++ rest, scope)

end Rendering

end Stencil
