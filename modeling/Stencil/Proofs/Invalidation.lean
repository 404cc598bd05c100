import Mathlib.Logic.Relation
import Stencil.Proofs.Concurrent
import Stencil.Proofs.Provenance
import Stencil.Proofs.SourceTable

namespace Stencil

/-- A storage that notes how it is accessed. -/
structure Logged (σ : Type) where
  inner : σ
  made : List Access

instance {σ : Type} [Storage σ] : Storage (Logged σ) where
  get s key :=
    let (found, inner) := Storage.get s.inner key
    (found, ⟨inner, s.made ++ [.get key found]⟩)
  set s key template := ⟨Storage.set s.inner key template, s.made ++ [.set key template]⟩

namespace Engine

/-- Is a template under a key made from the source that is there now? It is the template with the
key or what is left of it, and of templates whose keys are not plain nothing is said. -/
structure Current (e : Engine) (key : Text) (t : Template) : Prop where
  key_eq : key = t.path ∨ key = foldedKey t.path
  source : PlainKey t.path → ∃ source,
    e.sources e.options.root (t.path ++ ['.'] ++ e.options.ext) = .ok source ∧
      t.From (e.host e.options) e.options t.path source.text

/-- The cache when names of changed files are invalidated. -/
def invalidateAll (e : Engine) (paths : List Text) (c : Cache) : Cache :=
  paths.foldl (fun c path => e.invalidate path c) c

variable {e : Engine} {sound : Text → Template → Prop} {c : Cache}

theorem holds_invalidate (h : c.Holds sound) (path : Text) :
    (e.invalidate path c).Holds fun key t =>
      sound key t ∧ key ≠ e.key path ∧ key ≠ foldedKey (e.key path) :=
  ((h.remove_ne _).remove_ne _).mono fun _ _ h => ⟨h.1.1, h.1.2, h.2⟩

theorem holds_invalidateAll (h : c.Holds sound) (paths : List Text) :
    (e.invalidateAll paths c).Holds fun key t =>
      sound key t ∧ ∀ path ∈ paths, key ≠ e.key path ∧ key ≠ foldedKey (e.key path) := by
  induction paths generalizing sound c with
  | nil => exact h.mono fun _ _ h => ⟨h, fun _ hp => absurd hp List.not_mem_nil⟩
  | cons path paths ih =>
    refine (ih (holds_invalidate h path)).mono fun key t hkey => ?_
    obtain ⟨⟨hsound, hfirst⟩, hrest⟩ := hkey
    exact ⟨hsound, List.forall_mem_cons.mpr ⟨hfirst, hrest⟩⟩

variable {σ : Type}

theorem current_of_compileSource {key : Text} {w : World σ} {t : Template}
    (h : (e.compileSource e.options key w).1 = .ok t) : e.Current key t := by
  obtain ⟨rfl, source, hs, hfrom⟩ := from_of_compileSource h
  exact ⟨.inl rfl, fun _ => ⟨source, hs, hfrom⟩⟩

/-- What is left of a current template is current under the key for it. -/
theorem Current.left {key : Text} {t : Template} (h : e.Current key t) (constants : Scope)
    (words : List UInt32) :
    e.Current (foldedKey t.path) (t.left (e.host e.options) constants words) where
  key_eq := .inr rfl
  source hplain := by
    obtain ⟨source, hs, hfrom⟩ := h.source hplain
    exact ⟨source, hs, hfrom.left constants words⟩

/-- Two runs, the second with a log, while all that is found and set is current. -/
def logging (e : Engine) : Coupling (World Cache) (World (Logged Cache)) where
  inStep s t := s.words = t.words ∧ t.source.inner = s.source ∧ s.source.Holds e.Current ∧
    ∀ a ∈ t.source.made, a.Sound e.Current
  lost _ _ := False

theorem alike_draw_logging (e : Engine) {α : Type} (r : Random α) :
    e.logging.Alike (World.draw r) (World.draw r) :=
  World.alike_draw (c := e.logging) (fun _ _ h => h.1) (fun _ _ _ h => ⟨rfl, h.2⟩)
    (fun _ _ _ h => h) (fun _ _ _ h => h) r

variable {key : Text} {template : Template}

theorem cached_logging (e : Engine) (key : Text) :
    e.logging.Yields (fun found => ∀ t ∈ found, e.Current key t) (cached key) (cached key) := by
  intro s t h
  obtain ⟨hwords, hinner, hholds, hmade⟩ := h
  obtain ⟨hfound, hheld⟩ := hholds.get key
  refine ⟨?_, hfound, hwords, ?_, hheld, ?_⟩
  · simp only [cached, Storage.get, hinner]
  · simp only [cached, Storage.get, hinner]
  · intro a ha
    simp only [cached, Storage.get, hinner] at ha
    rcases List.mem_append.mp ha with ha | ha
    · exact hmade a ha
    · exact List.mem_singleton.mp ha ▸ hfound

theorem keep_logging (ht : e.Current key template) :
    e.logging.Yields (fun _ => True) (keep key template) (keep key template) := by
  intro s t h
  obtain ⟨hwords, hinner, hholds, hmade⟩ := h
  refine ⟨rfl, trivial, hwords, ?_, hholds.set ht, ?_⟩
  · simp only [keep, Storage.set, hinner]
  · intro a ha
    rcases List.mem_append.mp ha with ha | ha
    · exact hmade a ha
    · exact List.mem_singleton.mp ha ▸ ht

/-- A template that is asked for is current. -/
theorem precompile_logging (e : Engine) (path : Text) :
    e.logging.Yields (fun made => ∀ t, made = .ok t → e.Current (e.key path) t)
      (e.precompile path) (e.precompile path) := by
  refine (cached_logging e (e.key path)).bind fun found hfound => ?_
  cases found with
  | some template => exact .pure fun t ht => Except.ok.inj ht ▸ hfound template rfl
  | none =>
    have hsource : e.logging.Alike (e.compileSource e.options (e.key path))
        (e.compileSource e.options (e.key path)) :=
      alike_compileSource e e.options _ fun _ _ _ _ _ _ _ _ _ => alike_draw_logging e _
    have hyields : e.logging.Yields (fun made => ∀ t, made = .ok t → e.Current (e.key path) t)
        (e.compileSource e.options (e.key path)) (e.compileSource e.options (e.key path)) :=
      hsource.yields (fun _ _ h => h) fun s t ht => current_of_compileSource ht
    refine hyields.bind fun made hmade => ?_
    cases made with
    | error err => exact .pure fun t ht => by cases ht
    | ok template =>
      have hcurrent := hmade template rfl
      exact (keep_logging hcurrent).bind fun _ _ => .pure fun t ht => Except.ok.inj ht ▸ hcurrent

theorem folded_logging (h : e.Current key template) (constants : Scope) :
    e.logging.Yields (fun _ => True) (e.folded e.options template constants)
      (e.folded e.options template constants) := by
  refine (cached_logging e (foldedKey template.path)).bind fun found _ => ?_
  cases found.filter fun t => t.fingerprint = foldedFingerprint template constants with
  | some found => exact .pure trivial
  | none =>
    have hfold : e.logging.Alike (e.buildFolded e.options template constants)
        (e.buildFolded e.options template constants) :=
      alike_buildFolded e e.options template constants (alike_draw_logging e)
    have hyields : e.logging.Yields (fun t => e.Current (foldedKey template.path) t)
        (e.buildFolded e.options template constants)
        (e.buildFolded e.options template constants) := hfold.yields (fun _ _ h => h) fun s => by
      obtain ⟨words, hrun⟩ := buildFolded_run e e.options template constants s
      rw [hrun]
      exact h.left constants s.words
    exact hyields.bind fun made hmade => (keep_logging hmade).bind fun _ _ => .pure trivial

/-- All that a page finds in the cache, and sets there, is current. -/
theorem compile_logging (e : Engine) (path : Text) (scope : Scope) :
    e.logging.Yields (fun _ => True) (e.compile path scope) (e.compile path scope) := by
  refine (precompile_logging e path).bind fun found hfound => ?_
  cases found with
  | error err => exact .pure trivial
  | ok template =>
    have hload := alike_load (e := e) fun path =>
      (precompile_logging e path).alike fun _ _ h => h
    have hrender : ∀ template, e.logging.Yields (fun _ => True)
        (e.renderWith e.options template (Constants.expose scope))
        (e.renderWith e.options template (Constants.expose scope)) := fun template =>
      (alike_renderWith hload (alike_draw_logging e) template (Constants.expose scope)).yields
        (fun _ _ h => h) fun _ => trivial
    have hpage : ∀ template, e.logging.Yields (fun _ => True)
        (do return (.ok (← e.renderWith e.options template (Constants.expose scope)) :
          Except Error Text))
        (do return (.ok (← e.renderWith e.options template (Constants.expose scope)) :
          Except Error Text)) :=
      fun template => (hrender template).bind fun page _ => .pure trivial
    dsimp only
    split
    · exact hpage template
    · exact (folded_logging (hfound template rfl) _).bind fun template _ => hpage template

end Engine

/-- A site that is served: its engine, the sources of which may change, and its cache. -/
structure Deployment where
  engine : Engine
  cache : Cache

namespace Deployment

/-- A site of which no page was asked for yet. -/
def start (e : Engine) (capacity keepMs : Nat) : Deployment :=
  ⟨e, (Cache.ofCapacity capacity).setKeep keepMs⟩

def page (d : Deployment) (path : Text) (scope : Scope) (words : List UInt32) : Except Error Text :=
  (d.engine.compile path scope ⟨d.cache, words⟩).1

/-- A page, and the accesses to the cache that were made for it. -/
def logged (d : Deployment) (path : Text) (scope : Scope) (words : List UInt32) :
    Except Error Text × List Access :=
  let (page, w) := d.engine.compile path scope (⟨⟨d.cache, []⟩, words⟩ : World (Logged Cache))
  (page, w.source.made)

def afterPage (d : Deployment) (path : Text) (scope : Scope) (words : List UInt32) : Deployment :=
  { d with cache := (d.engine.compile path scope ⟨d.cache, words⟩).2.source }

/-- The site when a file has changed and the names by which this is reported are invalidated. -/
def afterChange (d : Deployment) (file : Text) (sources : SourcePlace) : Deployment :=
  let e := { d.engine with sources }
  ⟨e, e.invalidateAll (Changes.templates [file] e.options.root e.options.ext) d.cache⟩

/-- Have sources changed in no file but one? -/
def ChangedIn (root file : Text) (before after : SourcePlace) : Prop :=
  ∀ name, Path.joinUnder root name ≠ .ok file → after root name = before root name

/-- What can happen: a page is compiled, a file changes, or time goes by. -/
inductive Step : Deployment → Deployment → Prop
  | compile (d : Deployment) (path : Text) (scope : Scope) (words : List UInt32) :
    Step d (d.afterPage path scope words)
  | change (d : Deployment) (file : Text) (sources : SourcePlace)
    (h : ChangedIn d.engine.options.root file d.engine.sources sources) :
    Step d (d.afterChange file sources)
  | elapse (d : Deployment) (ms : Nat) : Step d { d with cache := d.cache.modify (·.advance ms) }

end Deployment

namespace SourceTable

/-- A source that is added to a table changes what is found in one file. -/
theorem changedIn_add (t : SourceTable) {path file : Text} (h : Path.joinUnder [] path = .ok file)
    (source : Text) : Deployment.ChangedIn [] file t.resolve (t.add path source).resolve := by
  intro name hname
  unfold resolve add
  cases hj : Path.joinUnder [] name with
  | error err => rfl
  | ok other =>
    have hne : other ≠ file := fun he => hname (he ▸ hj)
    simp only [normalize_of_joinUnder hj, normalize_of_joinUnder h, Dictionary.get?_insert,
      if_neg hne.symm]

end SourceTable

namespace Deployment

variable {e : Engine} {d : Deployment}

theorem page_logging (h : d.cache.Holds d.engine.Current) (path : Text) (scope : Scope)
    (words : List UInt32) :
    ((d.logged path scope words).1 = d.page path scope words ∧
        ∀ a ∈ (d.logged path scope words).2, a.Sound d.engine.Current) ∧
      (d.afterPage path scope words).cache.Holds d.engine.Current := by
  obtain ⟨hpage, -, -, -, hheld, hmade⟩ := Engine.compile_logging d.engine path scope
    ⟨d.cache, words⟩ ⟨⟨d.cache, []⟩, words⟩ ⟨rfl, rfl, h, fun _ ha => absurd ha List.not_mem_nil⟩
  exact ⟨⟨hpage.symm, hmade⟩, hheld⟩

/-- When the names of a changed file are invalidated, what is left in the cache is current. -/
theorem holds_afterChange (hext : Changes.PlainExtension d.engine.options.ext)
    (h : d.cache.Holds d.engine.Current) {file : Text} {sources : SourcePlace}
    (hc : ChangedIn d.engine.options.root file d.engine.sources sources) :
    (d.afterChange file sources).cache.Holds (d.afterChange file sources).engine.Current := by
  refine (Engine.holds_invalidateAll h _).mono fun key t hkey => ?_
  obtain ⟨⟨hkeys, hsource⟩, hgone⟩ := hkey
  refine ⟨hkeys, fun hplain => ?_⟩
  obtain ⟨source, hs, hfrom⟩ := hsource hplain
  refine ⟨source, ?_, hfrom⟩
  refine (hc _ fun hfile => ?_).trans hs
  -- the record would be of the changed file, of which none are left
  have hname : t.path ++ ['.'] ++ (d.afterChange file sources).engine.options.ext =
      t.path ++ '.' :: d.engine.options.ext := List.append_assoc ..
  rw [hname, Path.joinUnder_plain (hplain.parts.extend hext.slash)] at hfile
  obtain rfl := Except.ok.inj hfile
  have hreported : t.path ++ '.' :: d.engine.options.ext ∈ Changes.templates
      [Path.inside d.engine.options.root ++ (t.path ++ '.' :: d.engine.options.ext)]
        d.engine.options.root d.engine.options.ext := by
    rw [Changes.templates_plain hplain.parts hext]
    exact List.mem_singleton_self _
  obtain ⟨hne, hne'⟩ := hgone _ hreported
  have hkey : Engine.key { d.engine with sources } (t.path ++ '.' :: d.engine.options.ext) =
      t.path := Engine.keyFor_plain hplain hext
  rw [hkey] at hne hne'
  exact hkeys.elim hne hne'

/-- In a site whose extension is plain, all that is in the cache is current at all times. -/
theorem holds_of_reachable {capacity keepMs : Nat} (hext : Changes.PlainExtension e.options.ext)
    (h : Relation.ReflTransGen Step (start e capacity keepMs) d) :
    d.engine.options = e.options ∧ d.cache.Holds d.engine.Current := by
  induction h with
  | refl => exact ⟨rfl, MemoryCache.holds_of_entries_eq_nil rfl⟩
  | tail _ hstep ih =>
    obtain ⟨hoptions, hheld⟩ := ih
    cases hstep with
    | compile path scope words => exact ⟨hoptions, (page_logging hheld path scope words).2⟩
    | change file sources hc =>
      exact ⟨hoptions, holds_afterChange (hoptions ▸ hext) hheld hc⟩
    | elapse ms => exact ⟨hoptions, hheld.modify fun _ hm => hm⟩

/-- Whatever pages were asked for and whatever files have changed before: a page is made of what it
finds in the cache and sets there, and of a template with a plain key this is always made of the
source that is there now. -/
theorem compile_current {capacity keepMs : Nat} (hext : Changes.PlainExtension e.options.ext)
    (h : Relation.ReflTransGen Step (start e capacity keepMs) d) (path : Text) (scope : Scope)
    (words : List UInt32) :
    (d.logged path scope words).1 = d.page path scope words ∧
      ∀ a ∈ (d.logged path scope words).2, a.Sound d.engine.Current :=
  (page_logging (holds_of_reachable hext h).2 path scope words).1

theorem afterChange_eq {file : Text} {sources : SourcePlace} {names : List Text}
    (h : Changes.templates [file] d.engine.options.root d.engine.options.ext = names) :
    d.afterChange file sources = ⟨{ d.engine with sources },
      Engine.invalidateAll { d.engine with sources } names d.cache⟩ := by
  subst h
  rfl

theorem plainExtension_default : Changes.PlainExtension (Options.ofStore []).ext where
  point := by decide
  slash := by decide
  backslash := by decide
  last c hc := by
    obtain rfl := Option.some.inj hc
    decide +kernel

/-- A table with one page, and the table when this page has changed. -/
def oldNotice : SourceTable := [("index.xhtml".toList, "old".toList)]

def newNotice : SourceTable := oldNotice.add "index.xhtml".toList "new".toList

/-- A site whose page was asked for by some path before it changed. -/
def notice (path : String) : Deployment :=
  ((start (.ofSources 1 oldNotice.resolve) 1 1000).afterPage path.toList [] []).afterChange
    "index.xhtml".toList newNotice.resolve

theorem notice_eq (path : String) : notice path = ⟨.ofSources 1 newNotice.resolve,
    (Engine.ofSources 1 newNotice.resolve).invalidate "index.xhtml".toList
      ((start (.ofSources 1 oldNotice.resolve) 1 1000).afterPage path.toList [] []).cache⟩ := by
  have hplain : Path.Plain "index".toList := by decide +kernel
  have hreported : Changes.templates ["index.xhtml".toList] [] "xhtml".toList =
      ["index.xhtml".toList] := Changes.templates_plain hplain plainExtension_default []
  exact afterChange_eq
    (d := (start (.ofSources 1 oldNotice.resolve) 1 1000).afterPage path.toList [] [])
    hreported

theorem reachable_notice (path : String) : Relation.ReflTransGen Step
    (start (.ofSources 1 oldNotice.resolve) 1 1000) (notice path) := by
  have hfile : Path.joinUnder [] "index.xhtml".toList = .ok "index.xhtml".toList := by
    decide +kernel
  exact .tail (.single (.compile _ path.toList [] []))
    (.change _ _ _ (SourceTable.changedIn_add oldNotice hfile _))

theorem compile_current_notice :
    (notice "index").page "index".toList [] [] = .ok "new".toList ∧
      ∀ a ∈ ((notice "index").logged "index".toList [] []).2,
        a.Sound (notice "index").engine.Current := by
  refine ⟨?_, (compile_current (e := .ofSources 1 oldNotice.resolve) plainExtension_default
    (reachable_notice "index") _ _ _).2⟩
  rw [notice_eq]
  decide +kernel

/-- The page is stored under the key `./index`, and the change is reported as `index.xhtml`. -/
theorem page_stale : (notice "./index").page "./index".toList [] [] = .ok "old".toList ∧
    (notice "./index").engine.pageAlone "./index".toList [] [] = .ok "new".toList := by
  rw [notice_eq]
  decide +kernel

end Deployment

end Stencil
