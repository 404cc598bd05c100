import Stencil.Cache
import Stencil.Constants
import Stencil.Markdown.Block
import Stencil.Normalized
import Stencil.Options
import Stencil.Page
import Stencil.Render.Static
import Stencil.Source.Basic

namespace Stencil

/-- An engine: where sources are, its options, what the host of the site has given it, and how deep
residual blocks may be nested. A source is compiled once. If a request has constant data, the
compiled template is also folded against them, and what is left of it is kept under a key of its
own. -/
structure Engine where
  sources : SourcePlace
  store : OptionStore
  functions : Registry
  hooks : Hooks
  videos : Option VideoProvider
  maxBlocks : Nat

namespace Engine

abbrev Action := StateM (World Cache)

/-- An engine without options or functions of a host. -/
def ofSources (maxBlocks : Nat) (sources : SourcePlace) : Engine :=
  ⟨sources, [], [], .none, none, maxBlocks⟩

def options (e : Engine) : Options := .ofStore e.store

def option? (e : Engine) (name : Text) : Option Text := Dictionary.get? e.store name

def isVital (name : Text) : Bool :=
  name = "root".toList || name = "ext".toList || name = "markdown".toList

def cacheAfterOption (e : Engine) (name value : Text) (c : Cache) : Cache :=
  let c :=
    if name = "cache".toList then ((Options.milliseconds? value).map c.setKeep).getD c else c
  if isVital name && e.option? name ≠ some value then c.clear else c

/-- Sets an option. Blanks around its name and its value do not count. -/
def setOption (e : Engine) (name value : Text) (c : Cache) : Engine × Cache :=
  let name := Text.trim name
  let value := Text.trim value
  ({ e with store := Dictionary.insert e.store name value }, e.cacheAfterOption name value c)

def register (e : Engine) (name : Text) (f : TagFunction) : Except Error Engine :=
  match e.functions.register name f with
  | .ok functions => .ok { e with functions }
  | .error name => .error (.reservedFunction name)

def host (e : Engine) (options : Options) : Host :=
  ⟨e.functions, e.hooks, e.videos, options.assets, e.maxBlocks⟩

/-- The key of a template: its path with slashes that lean forward, without any in front, and
without its extension. -/
def keyFor (path ext : Text) : Text :=
  let path := (Text.trim path).map fun c => if c = '\\' then '/' else c
  let path := path.dropWhile (· == '/')
  (Text.dropEnding? ('.' :: ext) path).getD path

def key (e : Engine) (path : Text) : Text := keyFor path e.options.ext

/-- The key of what is left of a template when it is folded. -/
def foldedKey (key : Text) : Text := key ++ ".pre".toList

def onCache (f : Cache → Cache) : Action Unit := fun w => ((), { w with source := f w.source })

section Compiling

variable {σ : Type}

/-- What the storage of the engine holds under a key. -/
def cached [Storage σ] (key : Text) : StateM (World σ) (Option Template) := fun w =>
  let (template, source) := Storage.get w.source key
  (template, { w with source })

def keep [Storage σ] (key : Text) (template : Template) : StateM (World σ) Unit := fun w =>
  ((), { w with source := Storage.set w.source key template })

/-- Compiles a source: takes its literals and blocks out, writes its tags as placeholders, and calls
the functions that depend on nothing else. -/
def build (host : Host) (options : Options) (key source : Text) :
    StateM (World σ) (Except Error Template) := do
  let (text, literals) := LiteralTable.extract (Marker.encode source)
  let (text, blocks) := Block.sink literals text
  match Normalized.ofText? literals text with
  | none => return .error .unclosedReference
  | some normalized =>
    let html := Hole.preserve literals normalized.html
    let html := if options.markdown then Markdown.render html else html
    let html ← Static.expand host normalized.attrs literals (literals.requote html)
    return .ok ⟨key, html, normalized.attrs, literals, blocks, Sha256.fingerprint source⟩

def compileSource (e : Engine) (options : Options) (key : Text) :
    StateM (World σ) (Except Error Template) :=
  match e.sources options.root (key ++ ['.'] ++ options.ext) with
  | .error err => return .error err
  | .ok source => build (e.host options) options key source.text

variable [Storage σ]

/-- The compiled template at a path, from the cache or else from its source. -/
def precompile (e : Engine) (path : Text) : StateM (World σ) (Except Error Template) := do
  let options := e.options
  let key := keyFor path options.ext
  match ← cached key with
  | some template => return .ok template
  | none =>
    match ← e.compileSource options key with
    | .error err => return .error err
    | .ok template =>
      keep key template
      return .ok template

/-- The first of some paths at which there is a template. A failure that is not for want of a
template ends the search. -/
def firstOf (e : Engine) : List Text → StateM (World σ) (Option Template)
  | [] => return none
  | path :: more => do
    match ← e.precompile path with
    | .ok template => return some template
    | .error err => if err.isNotFound then e.firstOf more else return none

/-- The paths at which a template that a tag names may be. Points in the name of a component stand
for slashes. -/
def candidates (options : Options) (kind : TemplateKind) (name : Text) : List Text :=
  match kind with
  | .component =>
    let path := name.map fun c => if c = '.' then '/' else c
    if options.components.isEmpty then [path] else [options.components ++ ['/'] ++ path, path]
  | .imported | .layout => [name]

def load (e : Engine) (kind : TemplateKind) (name : Text) : StateM (World σ) (Option Template) :=
  e.firstOf (candidates e.options kind name)

def site (e : Engine) (options : Options) : Site σ := { e.host options with load := e.load }

def foldedFingerprint (template : Template) (constants : Scope) : Text :=
  Sha256.fingerprint (template.fingerprint ++ Json.compact (.map constants))

def buildFolded (e : Engine) (options : Options) (template : Template) (constants : Scope) :
    StateM (World σ) Template := do
  let (html, attrs) ← Page.fold (e.site options) template constants
  return { template with html, attrs, fingerprint := foldedFingerprint template constants }

/-- What is left of a template when it is folded against constant data, from the cache if it was
made of the same source and the same data. -/
def folded (e : Engine) (options : Options) (template : Template) (constants : Scope) :
    StateM (World σ) Template := do
  let key := foldedKey template.path
  match (← cached key).filter fun t => t.fingerprint = foldedFingerprint template constants with
  | some found => return found
  | none =>
    let made ← e.buildFolded options template constants
    keep key made
    return made

/-- The layout of a page: the one that its data name, or that of the options. -/
def layoutName (options : Options) (scope : Scope) : Option Text :=
  match Dictionary.get? scope "template".toList with
  | some (.str name) => some name
  | _ => options.template

def renderWith (e : Engine) (options : Options) (template : Template) (scope : Scope) :
    StateM (World σ) Text :=
  Page.compile (e.site options) template scope (layoutName options scope)

def render (e : Engine) (template : Template) (scope : Scope) : StateM (World σ) Text :=
  e.renderWith e.options template scope

def compile (e : Engine) (path : Text) (scope : Scope) :
    StateM (World σ) (Except Error Text) := do
  let options := e.options
  match ← e.precompile path with
  | .error err => return .error err
  | .ok template =>
    let constants := Constants.ofScope scope
    let template ←
      if constants.isEmpty then pure template else e.folded options template constants
    return .ok (← e.renderWith options template (Constants.expose scope))

end Compiling

/-- The page of an engine with one source and no options, for some data. -/
def page? (source : Text) (scope : Scope) : Option Text :=
  let e := ofSources 1 fun _ path => .ok ⟨path, source⟩
  (e.compile "index".toList scope (⟨.ofCapacity 1, []⟩ : World Cache)).1.toOption

def has (e : Engine) (path : Text) (c : Cache) : Bool := c.has (e.key path)

/-- Takes the template at a path out of the cache, with what was left of it when it was folded. -/
def invalidate (e : Engine) (path : Text) (c : Cache) : Cache :=
  let key := e.key path
  (c.remove key).remove (foldedKey key)

end Engine

end Stencil
