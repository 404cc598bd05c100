import Stencil.Proofs.Denotation
import Stencil.Proofs.History
import Stencil.Proofs.Interpolation

namespace Stencil

namespace Layout

variable {read? : Text → Option (Text × Text)}

theorem without_of_cutAt? {s : Text} (h : cutAt? read? s = none) : without read? s = s := by
  have hgo : without.go read? 0 s = s := by
    induction s with
    | nil => rfl
    | cons c s ih =>
      rw [cutAt?] at h
      cases hr : read? (c :: s) with
      | some found =>
        rw [hr] at h
        cases h
      | none =>
        rw [hr] at h
        rw [without.go, hr, ih (Option.map_eq_none_iff.mp h)]
  exact hgo

/-- A text without markers has none to be left out. -/
theorem stripMarkers_of_cutAt? {s : Text} (h : cutAt? marker? s = none) : stripMarkers s = s :=
  without_of_cutAt? h

/-- A page goes into a layout that is a marker without its own markers, and nothing is added. -/
theorem merge_bodyMarker (page : Text) : merge bodyMarker page = stripMarkers page := by
  have hensure : ensureMarker bodyMarker = bodyMarker := by decide
  have hhead : cutAt? headTag? bodyMarker = none := by decide
  have hmarker : cutAt? marker? bodyMarker = some ([], bodyMarker, []) := by decide
  have hempty : stripMarkers [] = [] := rfl
  simp only [merge, hensure, moveMeta, hhead, hmarker, hempty, List.nil_append, List.append_nil]

end Layout

namespace Reference

theorem substitute_of_not_mem {k s : Text} (hs : '%' ∉ s) (meaning : Text → Option Text) :
    substitute (Marker.opening ++ k) meaning s = s := by
  have happend : substitute (Marker.opening ++ k) meaning (s ++ []) =
      s ++ substitute (Marker.opening ++ k) meaning [] := substitute_append_of_not_mem hs []
  simpa [substitute] using happend

end Reference

namespace Rendering

variable {σ : Type} {frame : Frame σ}

theorem flatten_chars (s : Text) : (s.map fun c => [c]).flatten = s := by
  simpa using flatten_running s []

theorem fillM_chars {s : Text} (h : Hole.pieces s = s.map .inl)
    (f : Hole → Rendering σ (Option Text)) (p : Progress σ) : Hole.fillM f s p = (s, p) := by
  rw [fillM_eq, h]
  simp only [bind, StateT.bind]
  rw [mapM_chars fun c => rfl]
  exact Prod.ext (flatten_chars s) rfl

theorem interpolate_bodyMarker (scope : Scope) (p : Progress σ) :
    interpolate frame scope Layout.bodyMarker p = (Layout.bodyMarker, p) := by
  have hpieces : Hole.pieces Layout.bodyMarker = Layout.bodyMarker.map .inl := by decide +kernel
  have htags : InlineTag.pieces Layout.bodyMarker = [.inr Layout.bodyMarker] := by decide +kernel
  have htag : InlineTag.fillM (attributeHole frame (frame.resolver scope)) Layout.bodyMarker p =
      (Layout.bodyMarker, p) := by
    have hone : [.inr Layout.bodyMarker].mapM
        (fillInline (attributeHole frame (frame.resolver scope))) p = ([Layout.bodyMarker], p) :=
      mapM_cons_run (fillM_chars hpieces _ p) rfl
    rw [fillTagsM_eq, htags]
    simp only [bind, StateT.bind, hone]
    rfl
  simp only [interpolate, bind, StateT.bind, htag]
  exact fillM_chars hpieces (textHole frame (frame.resolver scope)) p

theorem restore_bodyMarker (p : Progress σ) :
    restore frame Layout.bodyMarker p = (Layout.bodyMarker, p) := by
  have hpieces : Block.pieces frame.template.blocks Layout.bodyMarker =
      Layout.bodyMarker.map .inl := by
    have hafter : Bare "BODY/>".toList := by decide
    change Block.pieces frame.template.blocks ('<' :: "BODY/>".toList) = _
    rw [Block.pieces]
    split
    next hm =>
      have hnone : Block.marker? ('<' :: "BODY/>".toList) = none := by decide
      rw [hnone] at hm
      cases hm
    next => exact congrArg (List.cons _) (hafter.blockPieces _)
  have hkept : frame.template.literals.requoteKept Layout.bodyMarker = Layout.bodyMarker :=
    Reference.substitute_of_not_mem (k := []) (by decide) _
  have hblocks : Block.reinjectM frame.site.hooks frame.template.blocks stash Layout.bodyMarker p =
      (Layout.bodyMarker, p) := by
    simp only [Block.reinjectM, bind, StateT.bind]
    rw [hpieces, mapM_chars fun c => rfl]
    exact Prod.ext (flatten_chars _) rfl
  simp only [restore, bind, StateT.bind, hblocks, hkept]
  rfl

theorem template_bodyMarker (hlate : frame.pass = .late)
    (h : frame.template.html = Layout.bodyMarker) (scope : Scope) (p : Progress σ) :
    template frame scope p = (Layout.bodyMarker, p) := by
  have hnext : Placeholder.next? Layout.bodyMarker = none := by decide
  have hblock : Residual.pieces Layout.bodyMarker = [.inl Layout.bodyMarker] := by
    rw [Residual.pieces]
    split
    next => rfl
    next hc => cases hc
  have hplain := template_plain hlate (h.symm ▸ hnext) (h.symm ▸ hblock) scope p
  rw [hplain, h, interpolate_bodyMarker]
  exact restore_bodyMarker p
end Rendering

namespace Page

variable {σ : Type} {site : Site σ} {template : Template} {name : Option Text} {w : World σ}

/-- A page that is put together, before its layout. -/
def assembled (site : Site σ) (template : Template) (scope : Scope) : StateM (World σ) Text := do
  let (page, fragments, _) ← start (Rendering.template (.root site .late template) scope)
  return fragments.assemble page

/-- What is done with a page in its layout: its markers are read back, and the parts that belong in
its head are put there. -/
def published (assets : Text) (scope : Scope) (page : Text) : Text :=
  Video.inject (Layout.injectPublic (Marker.decode page) scope) assets

theorem compile_of_none (h : layout? site template name w = (none, w)) (scope : Scope) :
    compile site template scope name w =
      (published site.assets scope <$> assembled site template scope) w := by
  simp only [compile, bind, StateT.bind, h]
  rfl

/-- A layout that is a marker and nothing else leaves out the markers of its page. -/
theorem compile_of_bodyMarker {l : Template} (h : layout? site template name w = (some l, w))
    (hl : l.html = Layout.bodyMarker) (scope : Scope) :
    compile site template scope name w =
      ((published site.assets scope ∘ Layout.stripMarkers) <$>
        assembled site template scope) w := by
  have hlayout : ∀ p : Progress σ, Rendering.template (.root site .late l) scope p =
      (Layout.bodyMarker, p) := Rendering.template_bodyMarker rfl hl scope
  have hassemble : ∀ fragments : Fragments,
      fragments.assemble Layout.bodyMarker = Layout.bodyMarker := by
    intro fragments
    rw [Fragments.assemble, Fragments.expand]
    exact Reference.substitute_of_not_mem (k := ['v']) (by decide) _
  have hfinish : ∀ (fragments : Fragments) (page : Text),
      finish site scope fragments page (some Layout.bodyMarker) =
        published site.assets scope (Layout.stripMarkers (fragments.assemble page)) := by
    intro fragments page
    simp only [finish, hassemble, Layout.merge_bodyMarker, published]
  rcases hpage : Rendering.template (.root site .late template) scope ⟨.empty, [], w⟩ with ⟨page, p⟩
  have hstart : start (σ := σ) (do
      let page ← Rendering.template (.root site .late template) scope
      let layout ← (some l).mapM fun l => Rendering.template (.root site .late l) scope
      return (page, layout)) w =
        (((page, some Layout.bodyMarker), p.fragments, p.added), p.world) := by
    have hmapped : ((some l).mapM fun l => Rendering.template (.root site .late l) scope) p =
        (some Layout.bodyMarker, p) := by
      simp only [Option.mapM_some, Functor.map, StateT.map, hlayout]
      rfl
    simp only [start, bind, StateT.bind, hpage, hmapped]
    rfl
  have hassembled : assembled site template scope w = (p.fragments.assemble page, p.world) := by
    simp only [assembled, start, bind, StateT.bind, hpage]
    rfl
  simp only [Functor.map, StateT.map, hassembled]
  simp only [bind] at hstart
  simp only [compile, bind, StateT.bind, h, hstart]
  exact Prod.ext (hfinish _ _) rfl

end Page

namespace Engine

/-- Two runs that are the same, without a storage. -/
def unstored : Coupling (World Cache) (World Cache) where
  inStep s t := s = t ∧ s.source = .off
  lost _ _ := False

theorem alike_unstored {α : Type} {m : StateM (World Cache) α}
    (h : ∀ s : World Cache, s.source = .off → (m s).2.source = .off) : unstored.Alike m m where
  left _ _ hl := hl
  right _ _ hl := hl
  step s t hst := by
    obtain ⟨rfl, hs⟩ := hst
    exact .inr ⟨rfl, rfl, h s hs⟩

theorem Coupling.Alike.off {α : Type} {m : StateM (World Cache) α} (h : unstored.Alike m m)
    {s : World Cache} (hs : s.source = .off) : (m s).2.source = .off :=
  ((h.step s s ⟨rfl, hs⟩).resolve_left id).2.2

variable {e : Engine} {path name key : Text} {scope : Scope} {s : World Cache} {template : Template}

theorem alike_unstored_draw {α : Type} (r : Random α) :
    unstored.Alike (World.draw r) (World.draw r) := by
  refine alike_unstored fun s hs => ?_
  unfold World.draw
  split
  · exact hs
  · exact hs

theorem alike_unstored_cached (key : Text) :
    unstored.Alike (cached key : StateM (World Cache) _) (cached key) :=
  alike_unstored fun s hs => by simp [cached, Storage.get, hs, Cache.get]

theorem alike_unstored_keep (key : Text) (template : Template) :
    unstored.Alike (keep key template : StateM (World Cache) _) (keep key template) :=
  alike_unstored fun s hs => by simp [keep, Storage.set, hs, Cache.set, Cache.modify]

theorem cached_off (hs : s.source = .off) (key : Text) : cached key s = (none, s) := by
  obtain ⟨source, words⟩ := s
  cases hs
  rfl

theorem keep_off (hs : s.source = .off) (key : Text) (template : Template) :
    keep key template s = ((), s) := by
  obtain ⟨source, words⟩ := s
  cases hs
  rfl

theorem off_compileSource (e : Engine) (key : Text) (hs : s.source = .off) :
    (e.compileSource e.options key s).2.source = .off :=
  Coupling.Alike.off (alike_compileSource e e.options key fun _ _ _ _ _ _ _ _ _ =>
    alike_unstored_draw _) hs

theorem off_prepared (e : Engine) (path : Text) (scope : Scope) (hs : s.source = .off) :
    (e.prepared path scope s).2.source = .off :=
  Coupling.Alike.off
    (alike_prepared alike_unstored_cached alike_unstored_keep alike_unstored_draw path scope) hs

/-- Without a storage a template is compiled each time it is asked for. -/
theorem precompile_off (e : Engine) (path : Text) (hs : s.source = .off) :
    e.precompile path s = e.compileSource e.options (e.key path) s := by
  have hoff := off_compileSource e (e.key path) hs
  simp only [precompile, bind, StateT.bind, cached_off hs]
  rw [key] at hoff ⊢
  cases hmade : e.compileSource e.options (keyFor path e.options.ext) s with
  | mk made s' =>
    rw [hmade] at hoff
    cases made with
    | error err => rfl
    | ok template => simp only [StateT.bind, keep_off hoff]; rfl

theorem path_of_compileSource {w : World Cache}
    (h : (e.compileSource e.options key w).1 = .ok template) : template.path = key := by
  unfold compileSource at h
  cases hs : e.sources e.options.root (key ++ ['.'] ++ e.options.ext) with
  | error err =>
    rw [hs] at h
    cases h
  | ok source =>
    rw [hs] at h
    dsimp only at h
    rw [build_eq] at h
    cases hd : draft? e.options key source.text with
    | none =>
      rw [hd] at h
      cases h
    | some t =>
      rw [hd] at h
      obtain ⟨n, _, rfl⟩ := Option.map_eq_some_iff.mp hd
      cases h
      rfl

theorem path_of_folded (hs : s.source = .off) (constants : Scope) :
    (e.folded e.options template constants s).1.path = template.path := by
  simp only [folded, bind, StateT.bind, cached_off hs]
  rfl

theorem path_of_prepared (hs : s.source = .off) (h : (e.prepared path scope s).1 = .ok template) :
    template.path = e.key path := by
  simp only [prepared, bind, StateT.bind, precompile_off e path hs] at h
  cases hmade : e.compileSource e.options (e.key path) s with
  | mk made s' =>
    have hoff := off_compileSource e (e.key path) hs
    rw [hmade] at h hoff
    cases made with
    | error err => cases h
    | ok base =>
      have hbase : base.path = e.key path := path_of_compileSource (w := s) (by rw [hmade])
      unfold leftBy at h
      dsimp only at h
      split at h
      · cases h
        exact hbase
      · cases h
        exact (path_of_folded hoff _).trans hbase

/-- Is there a layout with a name whose source is a marker and nothing else? -/
structure IsBareLayout (e : Engine) (name : Text) : Prop where
  ne_nil : Text.trim name ≠ []
  source : ∃ path, e.sources e.options.root (e.key name ++ ['.'] ++ e.options.ext) =
    .ok ⟨path, Layout.bodyMarker⟩

theorem compileSource_bodyMarker {source : Text}
    (h : e.sources e.options.root (key ++ ['.'] ++ e.options.ext) =
      .ok ⟨source, Layout.bodyMarker⟩) :
    ∃ l, l.path = key ∧ l.html = Layout.bodyMarker ∧
      e.compileSource e.options key s = (.ok l, s) := by
  have hdraft : ∃ l, draft? e.options key Layout.bodyMarker = some l ∧ l.path = key ∧
      l.html = Layout.bodyMarker := by
    have hextract : LiteralTable.extract (Marker.encode Layout.bodyMarker) =
        (Layout.bodyMarker, []) := by decide +kernel
    have hsink : Block.sink [] Layout.bodyMarker = (Layout.bodyMarker, []) := by decide +kernel
    have hnormal : Normalized.ofText? [] Layout.bodyMarker =
        some ⟨Layout.bodyMarker, []⟩ := by decide +kernel
    have hpreserve : Hole.preserve [] Layout.bodyMarker = Layout.bodyMarker := by
      decide +kernel
    have hrender : Markdown.render Layout.bodyMarker = Layout.bodyMarker := by decide +kernel
    have hrequote : LiteralTable.requote [] Layout.bodyMarker = Layout.bodyMarker := by
      decide +kernel
    simp only [draft?, hextract, hsink, hnormal, Option.map_some, hpreserve, hrender, ite_self,
      hrequote]
    exact ⟨_, rfl, rfl, rfl⟩
  obtain ⟨l, hl, hpath, hhtml⟩ := hdraft
  have hnext : Placeholder.next? Layout.bodyMarker = none := by decide
  have hexpand : (Static.expand (e.host e.options) l.attrs l.literals Layout.bodyMarker :
      StateM (World Cache) Text) = pure Layout.bodyMarker := Static.expand_of_none hnext
  refine ⟨l, hpath, hhtml, ?_⟩
  unfold compileSource
  rw [h]
  dsimp only
  rw [build_eq, hl]
  dsimp only
  rw [hhtml, hexpand, ← hhtml]
  rfl

theorem load_bodyMarker (h : e.IsBareLayout name) (hs : s.source = .off) :
    ∃ l, l.path = e.key name ∧ l.html = Layout.bodyMarker ∧
      e.load .layout (Text.trim name) s = (some l, s) := by
  obtain ⟨source, hsource⟩ := h.source
  obtain ⟨l, hpath, hhtml, hmade⟩ := compileSource_bodyMarker (s := s) hsource
  have hkey : e.key (Text.trim name) = e.key name := by simp only [key, keyFor, Text.trim_trim]
  refine ⟨l, hpath, hhtml, ?_⟩
  simp only [load, candidates, firstOf, bind, StateT.bind, precompile_off e _ hs, hkey, hmade]
  rfl

/-- What a layout that is a marker and nothing else leaves of a page. A page that is its own layout
has none. -/
def bared (e : Engine) (path name page : Text) : Text :=
  if e.key name = e.key path then page else Layout.stripMarkers page

/-- The page for some data, put together, if nothing is stored. -/
def assembled (e : Engine) (path : Text) (scope : Scope) (words : List UInt32) :
    Except Error Text :=
  match e.prepared path scope (⟨.off, words⟩ : World Cache) with
  | (.error err, _) => .error err
  | (.ok template, s) =>
    .ok (Page.assembled (e.site e.options) template (Constants.expose scope) s).1

def published (e : Engine) (scope : Scope) (page : Text) : Text :=
  Page.published e.options.assets (Constants.expose scope) page

theorem compile_off_none {words : List UInt32}
    (h : layoutName e.options (Constants.expose scope) = none) :
    (e.compile path scope (⟨.off, words⟩ : World Cache)).1 =
      (e.assembled path scope words).map (e.published scope) := by
  rw [compile_prepared]
  unfold assembled
  cases e.prepared path scope (⟨.off, words⟩ : World Cache) with
  | mk made s =>
    cases made with
    | error err => rfl
    | ok template =>
      have hlayout : Page.layout? (e.site e.options) template none s = (none, s) := rfl
      have hcompile := Page.compile_of_none hlayout (Constants.expose scope)
      simp only [renderWith, h, Functor.map, StateT.map, hcompile]
      rfl

theorem compile_off_bare {words : List UInt32} (h : e.IsBareLayout name)
    (hname : layoutName e.options (Constants.expose scope) = some name) :
    (e.compile path scope (⟨.off, words⟩ : World Cache)).1 =
      (e.assembled path scope words).map (e.published scope ∘ e.bared path name) := by
  have hoff := off_prepared e path scope (s := ⟨.off, words⟩) rfl
  rw [compile_prepared]
  unfold assembled
  cases hmade : e.prepared path scope (⟨.off, words⟩ : World Cache) with
  | mk made s =>
    rw [hmade] at hoff
    cases made with
    | error err => rfl
    | ok template =>
      have hpath : template.path = e.key path :=
        path_of_prepared (s := ⟨.off, words⟩) rfl (by rw [hmade])
      obtain ⟨l, hl, hhtml, hload⟩ := load_bodyMarker h hoff
      have hnamed : (Text.trim name).isEmpty = false := by simpa using h.ne_nil
      have hlayout : Page.layout? (e.site e.options) template (some name) s =
          (if e.key name = e.key path then none else some l, s) := by
        have hsite : (e.site e.options).load .layout (Text.trim name) s = (some l, s) := hload
        simp only [Page.layout?, Option.map_some, Option.filter_some, hnamed, Bool.not_false,
          ↓reduceIte, bind, StateT.bind, hsite, hl, hpath]
        by_cases he : e.key name = e.key path
        · simp [he, pure, StateT.pure]
        · simp [he, pure, StateT.pure]
      have hrender : e.renderWith e.options template (Constants.expose scope) s =
          ((e.published scope ∘ e.bared path name) <$>
            Page.assembled (e.site e.options) template (Constants.expose scope)) s := by
        simp only [renderWith, hname]
        by_cases he : e.key name = e.key path
        · rw [if_pos he] at hlayout
          have hbared : e.bared path name = id := by
            funext page
            exact if_pos he
          rw [Page.compile_of_none hlayout, hbared]
          rfl
        · rw [if_neg he] at hlayout
          have hbared : e.bared path name = Layout.stripMarkers := by
            funext page
            exact if_neg he
          rw [Page.compile_of_bodyMarker hlayout hhtml, hbared]
          rfl
      simp only [Functor.map, StateT.map, hrender]
      rfl

/-- Two engines that differ in the layout of the options only. -/
structure ButLayout (e f : Engine) : Prop where
  sources : f.sources = e.sources
  functions : f.functions = e.functions
  hooks : f.hooks = e.hooks
  videos : f.videos = e.videos
  maxBlocks : f.maxBlocks = e.maxBlocks
  options : f.options = { e.options with template := f.options.template }

section ButLayout

variable {f : Engine}

theorem butLayout_setOption (e : Engine) (value : Text) (c : Cache) :
    e.ButLayout (e.setOption "template".toList value c).1 := by
  have hsame : ∀ other : String, other.toList ≠ "template".toList →
      Options.get? (e.setOption "template".toList value c).1.store other =
        Options.get? e.store other := by
    intro other hne
    have htrim : Text.trim "template".toList = "template".toList := by decide
    simp only [Options.get?, setOption, htrim, Dictionary.get?_insert, if_neg hne.symm]
  refine ⟨rfl, rfl, rfl, rfl, rfl, ?_⟩
  simp only [options, Options.ofStore, hsame "root" (by decide), hsame "components" (by decide),
    hsame "ext" (by decide), hsame "cache" (by decide), hsame "assets" (by decide),
    hsame "markdown" (by decide)]

theorem ButLayout.host (h : e.ButLayout f) : f.host f.options = e.host e.options := by
  unfold Engine.host
  rw [h.functions, h.hooks, h.videos, h.maxBlocks, h.options]

theorem ButLayout.ext (h : e.ButLayout f) : f.options.ext = e.options.ext := by
  rw [h.options]

theorem ButLayout.compileSource (h : e.ButLayout f) (key : Text) :
    (f.compileSource f.options key : StateM (World Cache) _) = e.compileSource e.options key := by
  unfold Engine.compileSource
  rw [h.host, h.sources, h.options]
  rfl

theorem ButLayout.precompile (h : e.ButLayout f) (path : Text) :
    (f.precompile path : StateM (World Cache) _) = e.precompile path := by
  simp only [Engine.precompile, h.ext, h.compileSource]

theorem ButLayout.load (h : e.ButLayout f) (kind : TemplateKind) (name : Text) :
    (f.load kind name : StateM (World Cache) _) = e.load kind name := by
  have hcandidates : candidates f.options kind name = candidates e.options kind name := by
    rw [h.options]
    rfl
  unfold Engine.load
  rw [hcandidates]
  induction candidates e.options kind name with
  | nil => rfl
  | cons path more ih => simp only [firstOf, h.precompile, ih]

theorem ButLayout.site (h : e.ButLayout f) :
    (f.site f.options : Site Cache) = e.site e.options := by
  unfold Engine.site
  rw [h.host, show (f.load : TemplateKind → Text → StateM (World Cache) _) = e.load from
    funext fun kind => funext fun name => h.load kind name]

theorem ButLayout.prepared (h : e.ButLayout f) (path : Text) (scope : Scope) :
    (f.prepared path scope : StateM (World Cache) _) = e.prepared path scope := by
  have hfolded : ∀ template constants, (f.folded f.options template constants :
      StateM (World Cache) _) = e.folded e.options template constants := by
    intro template constants
    unfold folded buildFolded
    rw [h.site]
  simp only [Engine.prepared, h.precompile, funext fun t => funext (hfolded t)]

theorem ButLayout.assembled (h : e.ButLayout f) (path : Text) (scope : Scope)
    (words : List UInt32) : f.assembled path scope words = e.assembled path scope words := by
  unfold Engine.assembled
  rw [h.prepared, h.site]

theorem ButLayout.published (h : e.ButLayout f) (scope : Scope) :
    f.published scope = e.published scope := by
  unfold Engine.published
  rw [h.options]

end ButLayout

/-- A cache without influence on a page: there is none, or it is one of a steady history in which
the page is asked for. -/
inductive Unaffected (e : Engine) (path : Text) (scope : Scope) (words : List UInt32) :
    Cache → Prop where
  | off : Unaffected e path scope words .off
  | steady {c : Cache} {first : Engine} {calls : List EngineCall} (hsteady : first.Steady calls)
      (hcall : (e, .compile ⟨path, scope, words⟩) ∈ first.history calls)
      (hc : first.Faithful calls e c) : Unaffected e path scope words c

theorem Unaffected.compile {words : List UInt32} {c : Cache} (h : e.Unaffected path scope words c) :
    (e.compile path scope (⟨c, words⟩ : World Cache)).1 =
      (e.compile path scope (⟨.off, words⟩ : World Cache)).1 := by
  cases h with
  | off => rfl
  | steady hsteady hcall hc => exact EngineAnswer.page.inj (hsteady.answer hcall hc).1

/-- In a layout that is a marker and nothing else, a page is what it is without a layout, but for
the markers that are left in it when it is put together. A marker in a page is no tag of the
template language, so it goes through the rendering, and a layout takes the markers of its page out
before the page goes into it. -/
theorem compile_bare {words : List UInt32} {c : Cache}
    (hname : layoutName e.options (Constants.expose scope) = some name)
    (hbare : e.IsBareLayout name) (hc : e.Unaffected path scope words c) :
    let page := e.assembled path scope words
    let plain := (e.setOption "template".toList [] c).1
    let inLayout := (e.compile path scope (⟨c, words⟩ : World Cache)).1
    let alone := (plain.compile path scope (⟨c, words⟩ : World Cache)).1
    inLayout = page.map (e.published scope ∘ e.bared path name) ∧
      ((∀ other, Dictionary.get? (Constants.expose scope) "template".toList ≠ some (.str other)) →
        plain.Unaffected path scope words c →
          alone = page.map (e.published scope) ∧
          ((∀ html, page = .ok html → Layout.cutAt? Layout.marker? html = none) →
            inLayout = alone)) := by
  dsimp only
  have hin := hc.compile.trans (compile_off_bare hbare hname)
  refine ⟨hin, fun hscope hplain => ?_⟩
  have hbut := butLayout_setOption e [] c
  have hnone : layoutName (e.setOption "template".toList [] c).1.options
      (Constants.expose scope) = none := by
    have htemplate : (e.setOption "template".toList [] c).1.options.template = none := by
      have htrim : Text.trim "template".toList = "template".toList := by decide
      simp only [options, Options.ofStore, Options.get?, setOption, htrim,
        Dictionary.get?_insert, ↓reduceIte]
      decide
    unfold layoutName
    split
    next other hother => exact absurd hother (hscope other)
    next => exact htemplate
  have halone := hplain.compile.trans (compile_off_none hnone)
  rw [hbut.assembled, hbut.published] at halone
  refine ⟨halone, fun hmarker => ?_⟩
  rw [hin, halone]
  cases hpage : e.assembled path scope words with
  | error err => rfl
  | ok html =>
    have hbared : e.bared path name html = html := by
      unfold bared
      split
      · rfl
      · exact Layout.stripMarkers_of_cutAt? (hmarker html hpage)
    exact congrArg (fun page => Except.ok (e.published scope page)) hbared

/-- A site with one page. Its other templates are markers and nothing else. -/
def leaflet (page : String) : Engine := .ofSources 1 fun _ path =>
  .ok ⟨path, if path = "index.xhtml".toList then page.toList else Layout.bodyMarker⟩

theorem compile_bare_leaflet :
    let framed := ((leaflet "<p>x</p>").setOption "template".toList "bare".toList .off).1
    let plain := (framed.setOption "template".toList [] .off).1
    framed.assembled "index".toList [] [] = .ok "<p>x</p>".toList ∧
      (framed.compile "index".toList [] (⟨.off, []⟩ : World Cache)).1 =
        (plain.compile "index".toList [] (⟨.off, []⟩ : World Cache)).1 := by
  dsimp only
  generalize hframed : ((leaflet "<p>x</p>").setOption "template".toList "bare".toList .off).1 =
    framed
  have hname : layoutName framed.options (Constants.expose []) = some "bare".toList := by
    subst hframed
    decide +kernel
  have hbare : framed.IsBareLayout "bare".toList := by
    subst hframed
    exact ⟨by decide, "bare.xhtml".toList, by decide +kernel⟩
  have hpage : framed.assembled "index".toList [] [] = .ok "<p>x</p>".toList := by
    subst hframed
    decide +kernel
  have hscope : Dictionary.get? (Constants.expose []) "template".toList = none := by
    decide +kernel
  refine ⟨hpage, ((compile_bare hname hbare .off).2 (fun other => ?_) .off).2 fun html h => ?_⟩
  · rw [hscope]
    exact nofun
  · cases hpage.symm.trans h
    decide +kernel

/-- A page that has a marker left in it has none in a layout that is a marker. -/
theorem compile_ne_bare :
    let plain := leaflet "a<body/>b"
    let framed := (plain.setOption "template".toList "bare".toList .off).1
    (plain.compile "index".toList [] (⟨.off, []⟩ : World Cache)).1 = .ok "a<BODY/>b".toList ∧
      (framed.compile "index".toList [] (⟨.off, []⟩ : World Cache)).1 = .ok "ab".toList := by
  decide +kernel

end Engine

end Stencil
