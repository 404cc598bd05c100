import Stencil.Proofs.Provenance
import Stencil.Proofs.Storage

namespace Stencil

/-- What is asked of the surroundings, each at its moment: others may change what is there in
between. -/
inductive Query where
  | options
  | read (root name : Text)
  | get (key : Text)
  | set (key : Text) (template : Template)
deriving DecidableEq

/-- What a query is answered. -/
def Query.Answer : Query → Type
  | options => Options
  | read .. => Except Error Source
  | get _ => Option Template
  | set .. => Unit

/-- Anything that answers queries: each may change it. -/
class Surroundings (σ : Type) where
  ask : σ → (q : Query) → q.Answer × σ

namespace Live

section Compiling

variable {σ : Type} [Surroundings σ]

def ask (q : Query) : StateM (World σ) q.Answer := fun w =>
  let (a, source) := Surroundings.ask w.source q
  (a, { w with source })

def options : StateM (World σ) Options := ask .options

def read (root name : Text) : StateM (World σ) (Except Error Source) := ask (.read root name)

def cached (key : Text) : StateM (World σ) (Option Template) := ask (.get key)

def keep (key : Text) (template : Template) : StateM (World σ) Unit := ask (.set key template)

variable (host : Options → Host)

/-- The compiled template at a path under some options, from what is stored or else from its
source. -/
def obtain (options : Options) (path : Text) :
    StateM (World σ) (Except Error Template) := do
  let key := Engine.keyFor path options.ext
  match ← cached key with
  | some template => return .ok template
  | none =>
    match ← read options.root (key ++ ['.'] ++ options.ext) with
    | .error err => return .error err
    | .ok source =>
      match ← Engine.build (host options) options key source.text with
      | .error err => return .error err
      | .ok template =>
        keep key template
        return .ok template

/-- The compiled template at a path under the options that are in force when it is asked for. -/
def precompile (path : Text) : StateM (World σ) (Except Error Template) := do
  obtain host (← options) path

def firstOf : List Text → StateM (World σ) (Option Template)
  | [] => return none
  | path :: more => do
    match ← precompile host path with
    | .ok template => return some template
    | .error err => if err.isNotFound then firstOf more else return none

/-- The first template at the paths where one may be. Only for a component do these depend on the
options. -/
def load (kind : TemplateKind) (name : Text) : StateM (World σ) (Option Template) := do
  match kind with
  | .component => firstOf host (Engine.candidates (← options) .component name)
  | .imported | .layout => firstOf host [name]

def site (options : Options) : Site σ := { host options with load := load host }

def buildFolded (options : Options) (template : Template) (constants : Scope) :
    StateM (World σ) Template := do
  let (html, attrs) ← Page.fold (site host options) template constants
  return { template with
    html, attrs, fingerprint := Engine.foldedFingerprint template constants }

/-- What is left of a template when it is folded against constant data, from what is stored if it
was made of the same source and the same data. -/
def folded (options : Options) (template : Template) (constants : Scope) :
    StateM (World σ) Template := do
  let key := Engine.foldedKey template.path
  match (← cached key).filter fun t =>
    t.fingerprint = Engine.foldedFingerprint template constants with
  | some found => return found
  | none =>
    let made ← buildFolded host options template constants
    keep key made
    return made

/-- The template that is rendered for a page: the one at its path, or what is left of it. -/
def prepare (options : Options) (path : Text) (scope : Scope) :
    StateM (World σ) (Except Error Template) := do
  match ← precompile host path with
  | .error err => return .error err
  | .ok template =>
    let constants := Constants.ofScope scope
    if constants.isEmpty then return .ok template
    else return .ok (← folded host options template constants)

def render (options : Options) (template : Template) (scope : Scope) :
    StateM (World σ) Text :=
  Page.compile (site host options) template scope (Engine.layoutName options scope)

/-- The page at a path, when its options are read. -/
def compileUnder (options : Options) (path : Text) (scope : Scope) :
    StateM (World σ) (Except Error Text) := do
  match ← prepare host options path scope with
  | .error err => return .error err
  | .ok template => return .ok (← render host options template (Constants.expose scope))

def compile (path : Text) (scope : Scope) :
    StateM (World σ) (Except Error Text) := do
  compileUnder host (← options) path scope

end Compiling

section Alike

variable {σ τ : Type} [Surroundings σ] [Surroundings τ] {c : Coupling (World σ) (World τ)}
  {host : Options → Host}

theorem alike_obtain
    (hask : ∀ q ≠ .options, c.Alike (ask q : StateM (World σ) _) (ask q : StateM (World τ) _))
    (hdraw : ∀ {α : Type} (r : Random α), c.Alike (World.draw r) (World.draw r))
    (options : Options) (path : Text) :
    c.Alike (obtain host options path) (obtain host options path) := by
  have hget : ∀ key, c.Alike (cached key) (cached key) := fun key => hask (.get key) nofun
  have hread : ∀ root name, c.Alike (read root name) (read root name) := fun root name =>
    hask (.read root name) nofun
  have hset : ∀ key template, c.Alike (keep key template) (keep key template) :=
    fun key template => hask (.set key template) nofun
  refine (hget _).bind fun found => ?_
  cases found with
  | some template => exact .pure _
  | none =>
    refine (hread _ _).bind fun found => ?_
    cases found with
    | error err => exact .pure _
    | ok source =>
      refine (Engine.alike_build hdraw _ _ _ _).bind fun made => ?_
      cases made with
      | error err => exact .pure _
      | ok template => exact (hset _ template).bind fun _ => .pure _

theorem alike_firstOf (hmade : ∀ path, c.Alike (precompile host path) (precompile host path))
    (paths : List Text) : c.Alike (firstOf host paths) (firstOf host paths) := by
  induction paths with
  | nil => exact .pure none
  | cons path more ih =>
    refine (hmade path).bind fun found => ?_
    cases found with
    | ok template => exact .pure _
    | error err =>
      dsimp only
      split
      · exact ih
      · exact .pure none

theorem alike_folded
    (hask : ∀ q ≠ .options, c.Alike (ask q : StateM (World σ) _) (ask q : StateM (World τ) _))
    (hdraw : ∀ {α : Type} (r : Random α), c.Alike (World.draw r) (World.draw r))
    (options : Options) (template : Template) (constants : Scope) :
    c.Alike (folded host options template constants) (folded host options template constants) := by
  have hget : ∀ key, c.Alike (cached key) (cached key) := fun key => hask (.get key) nofun
  have hset : ∀ key template, c.Alike (keep key template) (keep key template) :=
    fun key template => hask (.set key template) nofun
  refine (hget _).bind fun found => ?_
  cases found.filter fun t => t.fingerprint = Engine.foldedFingerprint template constants with
  | some found => exact .pure found
  | none =>
    have hfold : c.Alike (Page.fold (site host options) template constants)
        (Page.fold (site host options) template constants) :=
      Page.alike_fold (a := (site host options : Site σ)) (b := (site host options : Site τ)) rfl
        (fun _ _ _ r => hdraw r) (fun _ _ _ _ _ _ _ => hdraw _) constants
    have hmade : c.Alike (buildFolded host options template constants)
        (buildFolded host options template constants) := hfold.bind fun out => .pure _
    exact hmade.bind fun made => (hset _ made).bind fun _ => .pure made

theorem alike_render (hload : ∀ kind name, c.Alike (load host kind name) (load host kind name))
    (hdraw : ∀ {α : Type} (r : Random α), c.Alike (World.draw r) (World.draw r))
    (options : Options) (template : Template) (scope : Scope) :
    c.Alike (render host options template scope) (render host options template scope) :=
  Page.alike_compile (a := (site host options : Site σ)) (b := (site host options : Site τ)) rfl
    hload
    hdraw template scope _

/-- A page is alike if what it asks for is, once its options are read. -/
theorem alike_compileUnder
    (hask : ∀ q ≠ .options, c.Alike (ask q : StateM (World σ) _) (ask q : StateM (World τ) _))
    (hdraw : ∀ {α : Type} (r : Random α), c.Alike (World.draw r) (World.draw r))
    (hmade : ∀ path, c.Alike (precompile host path) (precompile host path))
    (hload : ∀ kind name, c.Alike (load host kind name) (load host kind name)) (options : Options)
    (path : Text) (scope : Scope) :
    c.Alike (compileUnder host options path scope) (compileUnder host options path scope) := by
  have hprepare : c.Alike (prepare host options path scope) (prepare host options path scope) := by
    refine (hmade path).bind fun found => ?_
    cases found with
    | error err => exact .pure _
    | ok template =>
      dsimp only
      split
      · exact .pure _
      · exact (alike_folded hask hdraw options template _).bind fun t => .pure _
  refine hprepare.bind fun made => ?_
  cases made with
  | error err => exact .pure _
  | ok template => exact (alike_render hload hdraw options template _).bind fun page => .pure _

section Queries

variable (hask : ∀ q, c.Alike (ask q : StateM (World σ) _) (ask q : StateM (World τ) _))
  (hdraw : ∀ {α : Type} (r : Random α), c.Alike (World.draw r) (World.draw r))

include hask

theorem alike_options_of_ask :
    c.Alike (options : StateM (World σ) _) (options : StateM (World τ) _) := hask .options

include hdraw

theorem alike_compileUnder_of_ask (o : Options) (path : Text) (scope : Scope) :
    c.Alike (compileUnder host o path scope) (compileUnder host o path scope) := by
  have hmade : ∀ path, c.Alike (precompile host path) (precompile host path) := fun path =>
    (alike_options_of_ask hask).bind fun o => alike_obtain (fun q _ => hask q) hdraw o path
  refine alike_compileUnder (fun q _ => hask q) hdraw hmade (fun kind name => ?_) o path scope
  cases kind with
  | component => exact (alike_options_of_ask hask).bind fun o => alike_firstOf hmade _
  | imported => exact alike_firstOf hmade _
  | layout => exact alike_firstOf hmade _

/-- If all queries are answered alike, what is made of the answers is alike. -/
theorem alike_compile (path : Text) (scope : Scope) :
    c.Alike (compile host path scope) (compile host path scope) :=
  (alike_options_of_ask hask).bind fun o => alike_compileUnder_of_ask hask hdraw o path scope

end Queries

end Alike

end Live

/-- What is around a request: the sources, the options, and a cache. -/
structure Around where
  sources : SourcePlace
  store : OptionStore
  cache : Cache

namespace Around

def options (a : Around) : Options := .ofStore a.store

instance : Surroundings Around where
  ask a
    | .options => (a.options, a)
    | .read root name => (a.sources root name, a)
    | .get key =>
      let (template, cache) := a.cache.get key
      (template, { a with cache })
    | .set key template => ((), { a with cache := a.cache.set key template })

theorem sources_ask (a : Around) (q : Query) : (Surroundings.ask a q).2.sources = a.sources := by
  cases q <;> rfl

theorem store_ask (a : Around) (q : Query) : (Surroundings.ask a q).2.store = a.store := by
  cases q <;> rfl

open Live

/-- The world of an engine, and the same world around a request. -/
def unchanged (e : Engine) : Coupling (World Cache) (World Around) where
  inStep s t := s.words = t.words ∧ t.source = ⟨e.sources, e.store, s.source⟩
  lost _ _ := False

variable {e : Engine}

theorem alike_draw (e : Engine) {α : Type} (r : Random α) :
    (unchanged e).Alike (World.draw r) (World.draw r) :=
  World.alike_draw (c := unchanged e) (fun _ _ h => h.1) (fun _ _ _ h => ⟨rfl, h.2⟩)
    (fun _ _ _ h => h) (fun _ _ _ h => h) r

theorem alike_cached (e : Engine) (key : Text) :
    (unchanged e).Alike (Engine.cached key) (cached key) where
  left _ _ h := h
  right _ _ h := h
  step s t h := by
    obtain ⟨hwords, hsource⟩ := h
    refine .inr ⟨?_, hwords, ?_⟩
    · simp only [Engine.cached, cached, ask, Surroundings.ask, Storage.get, hsource]
    · simp only [Engine.cached, cached, ask, Surroundings.ask, Storage.get, hsource]

theorem alike_keep (e : Engine) (key : Text) (template : Template) :
    (unchanged e).Alike (Engine.keep key template) (keep key template) where
  left _ _ h := h
  right _ _ h := h
  step s t h := by
    obtain ⟨hwords, hsource⟩ := h
    refine .inr ⟨rfl, hwords, ?_⟩
    simp only [Engine.keep, keep, ask, Surroundings.ask, Storage.set, hsource]

/-- What is read from the surroundings is there for the engine. -/
theorem alike_answer {β : Type} {q : Query} (a : q.Answer) {m : StateM (World Cache) β}
    {n : q.Answer → StateM (World Around) β}
    (ha : ∀ w : World Around, w.source.sources = e.sources → w.source.store = e.store →
      Surroundings.ask w.source q = (a, w.source))
    (h : (unchanged e).Alike m (n a)) : (unchanged e).Alike m (ask q >>= n) where
  left s t hl := hl
  right s t hl := hl
  step s t hs := by
    have hask : ask q t = (a, t) := by
      rw [ask, ha t (by rw [hs.2]) (by rw [hs.2])]
    have hrun : (ask q >>= n) t = n a t := by
      simp only [bind, StateT.bind, hask]
    rw [hrun]
    exact h.step s t hs

theorem alike_options {β : Type} {m : StateM (World Cache) β}
    {n : Options → StateM (World Around) β} (h : (unchanged e).Alike m (n e.options)) :
    (unchanged e).Alike m (Live.options >>= n) :=
  alike_answer (q := .options) e.options (fun w _ hstore => by
    rw [← show w.source.options = e.options from congrArg Options.ofStore hstore]
    rfl) h

theorem alike_precompile (e : Engine) (path : Text) :
    (unchanged e).Alike (e.precompile path) (precompile e.host path) := by
  refine alike_options ((alike_cached e _).bind fun found => ?_)
  cases found with
  | some template => exact .pure _
  | none =>
    refine alike_answer (q := .read ..)
      (e.sources e.options.root (Engine.keyFor path e.options.ext ++ ['.'] ++ e.options.ext))
      (fun w hsources _ => ?_) ?_
    · rw [← hsources]
      rfl
    · unfold Engine.compileSource
      cases e.sources e.options.root (Engine.keyFor path e.options.ext ++ ['.'] ++ e.options.ext)
        with
      | error err => exact .pure _
      | ok source =>
        refine (Engine.alike_build (alike_draw e) _ _ _ _).bind fun made => ?_
        cases made with
        | error err => exact .pure _
        | ok template => exact (alike_keep e _ template).bind fun _ => .pure _

theorem alike_firstOf (e : Engine) (paths : List Text) :
    (unchanged e).Alike (e.firstOf paths) (firstOf e.host paths) := by
  induction paths with
  | nil => exact .pure none
  | cons path more ih =>
    refine (alike_precompile e path).bind fun found => ?_
    cases found with
    | ok template => exact .pure _
    | error err =>
      dsimp only
      split
      · exact ih
      · exact .pure none

theorem alike_load (e : Engine) (kind : TemplateKind) (name : Text) :
    (unchanged e).Alike (e.load kind name) (load e.host kind name) := by
  cases kind with
  | component => exact alike_options (alike_firstOf e _)
  | imported => exact alike_firstOf e _
  | layout => exact alike_firstOf e _

theorem alike_folded (e : Engine) (template : Template) (constants : Scope) :
    (unchanged e).Alike (e.folded e.options template constants)
      (folded e.host e.options template constants) := by
  refine (alike_cached e _).bind fun found => ?_
  cases found.filter fun t => t.fingerprint = Engine.foldedFingerprint template constants with
  | some found => exact .pure found
  | none =>
    have hfold : (unchanged e).Alike (Page.fold (e.site e.options) template constants)
        (Page.fold (site e.host e.options) template constants) :=
      Page.alike_fold (a := e.site e.options) (b := site e.host e.options) rfl
        (fun _ _ _ r => alike_draw e r) (fun _ _ _ _ _ _ _ => alike_draw e _) constants
    have hmade : (unchanged e).Alike (e.buildFolded e.options template constants)
        (buildFolded e.host e.options template constants) := hfold.bind fun out => .pure _
    exact hmade.bind fun made => (alike_keep e _ made).bind fun _ => .pure made

theorem alike_render (e : Engine) (template : Template) (scope : Scope) :
    (unchanged e).Alike (e.renderWith e.options template scope)
      (render e.host e.options template scope) :=
  Page.alike_compile (a := e.site e.options) (b := site e.host e.options) rfl (alike_load e)
    (alike_draw e) template scope _

theorem alike_compile (e : Engine) (path : Text) (scope : Scope) :
    (unchanged e).Alike (e.compile path scope) (compile e.host path scope) := by
  refine alike_options ?_
  unfold compileUnder prepare
  rw [bind_assoc]
  refine (alike_precompile e path).bind fun found => ?_
  cases found with
  | error err => exact .pure _
  | ok template =>
    have hpage := fun template => (alike_render e template (Constants.expose scope)).bind
      fun page => .pure (.ok page : Except Error Text)
    dsimp only
    split
    · exact hpage template
    · rw [bind_assoc]
      exact (alike_folded e template _).bind fun template => hpage template

/-- The world of an engine, around a request. -/
def world (e : Engine) (w : World Cache) : World Around :=
  ⟨⟨e.sources, e.store, w.source⟩, w.words⟩

theorem eq_of_alike {α : Type} {m : StateM (World Cache) α} {n : StateM (World Around) α}
    (h : (unchanged e).Alike m n) (w : World Cache) :
    n (world e w) = ((m w).1, world e (m w).2) := by
  obtain ⟨hresult, hwords, haround⟩ := (h.step w (world e w) ⟨rfl, rfl⟩).resolve_left id
  refine Prod.ext hresult.symm ?_
  dsimp only [world] at hwords haround ⊢
  rw [hwords, ← haround]

/-- In surroundings that nobody else changes, a page is compiled as by the engine. -/
theorem compile_eq (e : Engine) (path : Text) (scope : Scope) (w : World Cache) :
    compile e.host path scope (⟨⟨e.sources, e.store, w.source⟩, w.words⟩ : World Around) =
      ((e.compile path scope w).1, ⟨⟨e.sources, e.store, (e.compile path scope w).2.source⟩,
        (e.compile path scope w).2.words⟩) :=
  eq_of_alike (alike_compile e path scope) w

end Around

end Stencil
