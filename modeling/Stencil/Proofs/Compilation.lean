import Stencil.Proofs.Cache
import Stencil.Proofs.Closing
import Stencil.Proofs.Provenance
import Stencil.Proofs.Termination

namespace Stencil

open Relation Rendering

namespace Engine

/-- The templates that an engine can make: what its sources are compiled to, and what is left of
that when it is folded. -/
def Makes (e : Engine) (t : Template) : Prop :=
  ∃ key source, e.sources e.options.root (key ++ ['.'] ++ e.options.ext) = .ok source ∧
    t.From (e.host e.options) e.options key source.text

/-- A cache of templates that an engine can make. Others are not kept. -/
structure OwnCache (e : Engine) where
  cache : Cache
  made : cache.Holds fun _ t => e.Makes t

open Classical in
noncomputable instance (e : Engine) : Storage (OwnCache e) where
  get c key := ((c.cache.get key).1, ⟨(c.cache.get key).2, (c.made.get key).2⟩)
  set c key t := if h : e.Makes t then ⟨c.cache.set key t, c.made.set h⟩ else c

/-- The world, with a cache of which nothing is known. -/
def OwnCache.forget {e : Engine} (w : World (OwnCache e)) : World Cache := ⟨w.source.cache, w.words⟩

/-- A run with the cache of an engine, and the same run with any cache. -/
def owning (e : Engine) : Coupling (World (OwnCache e)) (World Cache) where
  inStep s t := t = OwnCache.forget s
  lost _ _ := False

variable {e : Engine} {t : Template}

theorem alike_draw_owning (e : Engine) {α : Type} (r : Random α) :
    e.owning.Alike (World.draw r) (World.draw r) := by
  refine World.alike_draw (fun s t h => ?_) (fun s t words h => ?_) (fun _ _ _ h => h)
    (fun _ _ _ h => h) r
  · rw [show t = OwnCache.forget s from h]
    rfl
  · rw [show t = OwnCache.forget s from h]
    rfl

theorem cached_owning (e : Engine) (key : Text) :
    e.owning.Yields (fun found => ∀ t ∈ found, e.Makes t) (cached key) (cached key) := by
  rintro s t rfl
  exact ⟨rfl, (s.source.made.get key).1, rfl⟩

theorem keep_owning (key : Text) (ht : e.Makes t) :
    e.owning.Yields (fun _ => True) (keep key t) (keep key t) := by
  rintro s _ rfl
  have hset : Storage.set s.source key t = ⟨s.source.cache.set key t, s.source.made.set ht⟩ :=
    dif_pos ht
  refine ⟨rfl, trivial, ?_⟩
  change (⟨s.source.cache.set key t, s.words⟩ : World Cache) =
    OwnCache.forget ⟨Storage.set s.source key t, s.words⟩
  rw [hset]
  rfl

theorem makes_of_compileSource {σ : Type} {key : Text} {w : World σ}
    (h : (e.compileSource e.options key w).1 = .ok t) : e.Makes t := by
  obtain ⟨-, source, hs, hfrom⟩ := from_of_compileSource h
  exact ⟨key, source, hs, hfrom⟩

theorem makes_of_buildFolded {σ : Type} [Storage σ] (ht : e.Makes t) (constants : Scope)
    (w : World σ) : e.Makes (e.buildFolded e.options t constants w).1 := by
  obtain ⟨key, source, hs, hfrom⟩ := ht
  obtain ⟨words, hrun⟩ := buildFolded_run e e.options t constants w
  rw [hrun]
  exact ⟨key, source, hs, hfrom.left constants w.words⟩

/-- A template that is asked for is one that the engine makes. -/
theorem precompile_owning (e : Engine) (path : Text) :
    e.owning.Yields (fun found => ∀ t, found = .ok t → e.Makes t) (e.precompile path)
      (e.precompile path) := by
  have hbuilt : e.owning.Yields (fun found => ∀ t, found = .ok t → e.Makes t)
      (e.compileSource e.options (e.key path)) (e.compileSource e.options (e.key path)) :=
    (alike_compileSource e e.options _ fun _ _ _ _ _ _ _ _ _ => alike_draw_owning e _).yields
      (fun _ _ h => h) fun _ _ => makes_of_compileSource
  refine (cached_owning e _).bind fun found hfound => ?_
  cases found with
  | some t => exact .pure fun _ h => by cases h; exact hfound t rfl
  | none =>
    refine hbuilt.bind fun made hmade => ?_
    cases made with
    | error err => exact .pure nofun
    | ok t => exact (keep_owning _ (hmade t rfl)).bind fun _ _ => .pure hmade

theorem folded_owning (ht : e.Makes t) (constants : Scope) :
    e.owning.Yields e.Makes (e.folded e.options t constants) (e.folded e.options t constants) := by
  refine (cached_owning e _).bind fun found hfound => ?_
  cases hf : found.filter fun t' => t'.fingerprint = foldedFingerprint t constants with
  | some t' => exact .pure (hfound t' (Option.filter_eq_some_iff.mp hf).1)
  | none =>
    have hbuilt : e.owning.Yields e.Makes (e.buildFolded e.options t constants)
        (e.buildFolded e.options t constants) :=
      (alike_buildFolded e e.options t constants (alike_draw_owning e)).yields (fun _ _ h => h)
        (makes_of_buildFolded ht constants)
    exact hbuilt.bind fun made hmade => (keep_owning _ hmade).bind fun _ _ => .pure hmade

theorem alike_load_owning (e : Engine) (kind : TemplateKind) (name : Text) :
    e.owning.Alike (e.load kind name) (e.load kind name) :=
  alike_load (fun path => (precompile_owning e path).alike fun _ _ h => h) kind name

/-- A page is compiled with any cache of templates of the engine as with the cache of which that is
known. -/
theorem compile_owning (e : Engine) (path : Text) (scope : Scope) :
    e.owning.Yields (fun _ => True) (e.compile path scope) (e.compile path scope) := by
  have hpage : ∀ template, e.owning.Yields (fun _ => True)
      (Except.ok <$> e.renderWith e.options template (Constants.expose scope))
      (Except.ok <$> e.renderWith e.options template (Constants.expose scope) :
        StateM (World Cache) (Except Error Text)) := fun template =>
    ((alike_renderWith (alike_load_owning e) (alike_draw_owning e) template _).map Except.ok).yields
      (fun _ _ h => h) fun _ => trivial
  refine (precompile_owning e path).bind fun found hfound => ?_
  cases found with
  | error err => exact .pure trivial
  | ok template =>
    dsimp only
    split
    · exact hpage template
    · exact (folded_owning (hfound template rfl) _).bind fun left _ => hpage left

/-- The templates that the site of an engine gives are those that the engine makes. -/
theorem makes_of_gives {kind : TemplateKind} {name : Text}
    (h : (e.site e.options : Site (OwnCache e)).Gives kind name t) : e.Makes t := by
  obtain ⟨w, hload⟩ := h
  change (e.load kind name w).1 = some t at hload
  unfold load at hload
  generalize candidates e.options kind name = paths at hload
  -- the world changes with each path that is tried in vain
  induction paths generalizing w with
  | nil => cases hload
  | cons path more ih =>
    obtain ⟨-, hmade, -⟩ := precompile_owning e path w _ rfl
    simp only [firstOf, bind, StateT.bind] at hload
    cases hp : e.precompile path w with
    | mk found w' =>
      rw [hp] at hload hmade
      cases found with
      | ok template =>
        cases hload
        exact hmade _ rfl
      | error err =>
        dsimp only at hload
        split at hload
        · exact ih w' hload
        · cases hload

section Finishing

variable {σ : Type} [Storage σ]

/-- What is left of a template, by the given rendering of templates. -/
def foldedBy (render : Frame σ → Scope → Rendering σ Text) (e : Engine) (template : Template)
    (constants : Scope) : StateM (World σ) Template := do
  let key := foldedKey template.path
  match (← cached key).filter fun t => t.fingerprint = foldedFingerprint template constants with
  | some found => return found
  | none =>
    let (html, attrs) ← Page.foldBy render (e.site e.options) template constants
    let made := { template with
      html, attrs, fingerprint := foldedFingerprint template constants }
    keep key made
    return made

/-- A page, by the given rendering of templates. -/
def compileBy (render : Frame σ → Scope → Rendering σ Text) (e : Engine) (path : Text)
    (scope : Scope) : StateM (World σ) (Except Error Text) := do
  match ← e.precompile path with
  | .error err => return .error err
  | .ok template =>
    let constants := Constants.ofScope scope
    let template ←
      if constants.isEmpty then pure template else foldedBy render e template constants
    let scope := Constants.expose scope
    return .ok (← Page.compileBy render (e.site e.options) template scope
      (layoutName e.options scope))

end Finishing

/-- The jobs that an engine starts with: to render the templates that it makes, and to fold them. -/
def Starts (e : Engine) (j : Job (OwnCache e)) : Prop :=
  ∃ t, e.Makes t ∧ Page.Starts (e.site e.options) t j

/-- Compiling a page comes to an end if all jobs that the engine starts do. -/
def Finishes (e : Engine) (path : Text) (scope : Scope)
    (r : StateM (World (OwnCache e)) (Except Error Text)) : Prop :=
  ∃ run, (∀ j, e.Starts j → j.Finishes (run j)) ∧ r = compileBy (Job.whole run 0) e path scope

theorem compileBy_eq {render : Frame (OwnCache e) → Scope → Rendering (OwnCache e) Text}
    (hfold : ∀ t, e.Makes t → ∀ constants,
      Page.foldBy render (e.site e.options) t constants = Page.fold (e.site e.options) t constants)
    (hpage : ∀ t, e.Makes t → ∀ scope layout,
      Page.compileBy render (e.site e.options) t scope layout =
        Page.compile (e.site e.options) t scope layout) (path : Text) (scope : Scope) :
    compileBy render e path scope = e.compile path scope := by
  funext w
  obtain ⟨-, hmade, -⟩ := precompile_owning e path w _ rfl
  simp only [compileBy, compile, bind, StateT.bind]
  cases hp : e.precompile path w with
  | mk found w' =>
    rw [hp] at hmade
    cases found with
    | error err => rfl
    | ok t =>
      have ht := hmade t rfl
      have hfolded : foldedBy render e t (Constants.ofScope scope) =
          e.folded e.options t (Constants.ofScope scope) := by
        simp only [foldedBy, folded, buildFolded, hfold t ht]
        rfl
      have hrender : ∀ t, e.Makes t → ∀ w,
          StateT.bind (Page.compileBy render (e.site e.options) t (Constants.expose scope)
            (layoutName e.options (Constants.expose scope))) (fun page => pure (.ok page)) w =
          StateT.bind (e.renderWith e.options t (Constants.expose scope))
            (fun page => pure (Except.ok page : Except Error Text)) w := by
        intro t ht w
        rw [hpage t ht]
        rfl
      dsimp only
      rw [hfolded]
      split
      next hc => exact hrender t ht w'
      next hc =>
        obtain ⟨-, hleft, -⟩ := folded_owning ht (Constants.ofScope scope) w' _ rfl
        exact hrender _ hleft _

/-- Compiling a page comes to an end, however templates call each other, if in no source a comment
stands between a percent sign and an exclamation mark and if in no template that the engine makes
blocks are nested deeper than they may be. Every source that is found is compiled, all jobs that the
engine starts come to an end, and nothing is rendered in more templates than may be nested. It does
not count that the templates in the cache are known to be those of the engine. -/
theorem compile_finishes (e : Engine)
    (hsources : ∀ root name source, e.sources root name = .ok source → ¬Joined source.text)
    (hwithin : ∀ t, e.Makes t → Residual.Within e.maxBlocks t.html) (path : Text) (scope : Scope) :
    (∀ (key : Text) (source : Source) (w : World (OwnCache e)),
      e.sources e.options.root (key ++ ['.'] ++ e.options.ext) = .ok source →
        ∃ t, (e.compileSource e.options key w).1 = .ok t) ∧
      (∀ r, e.Finishes path scope r ↔ r = e.compile path scope) ∧
      (∀ j k, e.Starts j → ReflTransGen Job.Calls j k → k.depth ≤ maxDepth) ∧
      ∀ w : World (OwnCache e), e.compile path scope (OwnCache.forget w) =
        ((e.compile path scope w).1, OwnCache.forget (e.compile path scope w).2) := by
  have hgives : ∀ kind name t, (e.site e.options : Site (OwnCache e)).Gives kind name t →
      Residual.Within e.maxBlocks t.html := fun _ _ t h => hwithin t (makes_of_gives h)
  have hends := fun t (ht : e.Makes t) scope layout =>
    have hfits : Residual.Within (e.site e.options : Site (OwnCache e)).maxBlocks t.html := hwithin t ht
    Page.finishes_iff hfits hgives scope layout
  refine ⟨fun key source w hs => ?_, fun r => ⟨?_, ?_⟩, ?_, fun w => ?_⟩
  · obtain ⟨t, ht⟩ := exists_build (hsources _ _ _ hs) (e.host e.options) e.options key w
    refine ⟨t, ?_⟩
    rw [compileSource, hs]
    exact ht
  · -- a run of all jobs that the engine starts is one of those that a page of it starts
    rintro ⟨run, hrun, rfl⟩
    refine compileBy_eq (fun t ht constants => ?_) (fun t ht scope layout => ?_) path scope
    · exact ((hends t ht constants none).2.1 _).mp ⟨run, fun j hj => hrun j ⟨t, ht, hj⟩, rfl⟩
    · exact ((hends t ht scope layout).1 _).mp ⟨run, fun j hj => hrun j ⟨t, ht, hj⟩, rfl⟩
  · rintro rfl
    refine ⟨Job.rendered, ?_, ?_⟩
    · rintro j ⟨t, ht, hj⟩
      exact Job.finishes_rendered (Page.fits_of_starts (hwithin t ht) hgives hj)
    · rw [Page.whole_rendered_zero]
      exact (compileBy_eq (fun _ _ _ => rfl) (fun _ _ _ _ => rfl) path scope).symm
  · rintro j k ⟨t, ht, hj⟩ hk
    exact (hends t ht [] none).2.2 j k hj hk
  · obtain ⟨hresult, -, hworld⟩ := compile_owning e path scope w _ rfl
    exact Prod.ext hresult.symm hworld

/-- The source of a template that calls itself. -/
def mirror : Text := "a<Mirror/>".toList

/-- What it is compiled to. -/
def reflection : Text := "a<Mirror:0/>".toList

/-- A site whose templates all are that one. -/
def mirrors : Engine := .ofSources 1 fun _ path => .ok ⟨path, mirror⟩

/-- Folding leaves the call as it is. -/
theorem fold_reflection (site : Site σ) {t : Template} (ht : t.html = reflection)
    (constants : Scope) (w : World σ) : (Page.fold site t constants w).1.1 = reflection := by
  obtain ⟨frame, hframe⟩ : ∃ frame, Frame.root site (.early t.attrs.length) t = frame := ⟨_, rfl⟩
  have hearly : frame.pass.isEarly = true := by
    rw [← hframe]
    rfl
  have hhtml : frame.template.html = reflection := by
    rw [← hframe]
    exact ht
  have hletter : ∀ scope, interpolate frame scope ['a'] = pure ['a'] := by
    intro scope
    have htags : InlineTag.pieces ['a'] = [.inl ['a']] := by decide +kernel
    have hholes : Hole.pieces ['a'] = [.inl 'a'] := by decide +kernel
    simp [interpolate, InlineTag.fillM, Hole.fillM, htags, hholes]
  have hnil : ∀ scope, interpolate frame scope [] = pure [] := by
    intro scope
    simp [interpolate, InlineTag.fillM, Hole.fillM, InlineTag.pieces, Hole.pieces]
  have hlist : Node.list 0 reflection =
      [.text ['a'], .tag ⟨"Mirror".toList, 0, none, .alone⟩ none "<Mirror:0/>".toList,
        .text []] := by
    decide +kernel
  have hrole : TagRole.ofName "Mirror".toList = .component "Mirror".toList := by decide +kernel
  have hcall : ∀ inner child attrs scope, component frame child inner .component "Mirror".toList
      attrs none "<Mirror:0/>".toList scope = put scope "<Mirror:0/>".toList := by
    intro inner child attrs scope
    exact if_pos hearly
  have htemplate : ∀ inner, templateWith inner frame constants = pure reflection := by
    intro inner
    rw [templateWith, blocks_eq, hhtml]
    simp only [whole, levels, hlist, inTurn, node, text, hearly, if_true, hletter, hnil, tag, hrole,
      hcall, put, pure_bind]
    rfl
  have hnested : Rendering.template frame constants = pure reflection := htemplate _
  simp only [Page.fold, hframe, hnested]
  rfl

theorem html_of_makes {t : Template} (h : mirrors.Makes t) : t.html = reflection := by
  obtain ⟨key, source, hs, hfrom⟩ := h
  cases hs
  induction hfrom with
  | built words hbuild =>
    have hdraft : draft? mirrors.options key mirror =
        some ⟨key, reflection, [], [], [], Sha256.fingerprint mirror⟩ := by
      have hextract : LiteralTable.extract (Marker.encode mirror) = (mirror, []) := by
        decide +kernel
      have hsink : Block.sink [] mirror = (mirror, []) := by decide +kernel
      have hnormal : Normalized.ofText? [] mirror = some ⟨reflection, []⟩ := by decide +kernel
      have hkept : LiteralTable.requote [] (Hole.preserve [] reflection) = reflection := by
        decide +kernel
      have hplain : mirrors.options.markdown = false := by decide +kernel
      simp only [draft?, hextract, hsink, hnormal, Option.map_some, hplain, Bool.false_eq_true,
        if_false, hkept]
    have hexpand : Static.expand (mirrors.host mirrors.options) [] [] reflection =
        (pure reflection : StateM (World Cache) Text) := by
      have hnext : Placeholder.next? reflection = some ⟨['a'], ⟨"Mirror".toList, 0, none, .alone⟩,
          "<Mirror:0/>".toList, []⟩ := by decide +kernel
      have hend : Placeholder.next? [] = none := by decide +kernel
      rw [Static.expand_of_some hnext]
      simp only [Static.function?, Static.kept, Static.expand_of_none hend]
      rfl
    rw [build_eq, hdraft] at hbuild
    simp only [hexpand] at hbuild
    cases hbuild
    rfl
  | left _ constants words ih =>
    exact fold_reflection (mirrors.host mirrors.options).bare ih constants
      (⟨.off, words⟩ : World Cache)

theorem compile_finishes_mirrors :
    (∀ root name source, mirrors.sources root name = .ok source → ¬Joined source.text) ∧
      (∀ t, mirrors.Makes t → Residual.Within mirrors.maxBlocks t.html) ∧
      mirrors.Finishes "index".toList [] (mirrors.compile "index".toList []) ∧
      (mirrors.compile "index".toList [] ⟨Cache.ofCapacity 1, []⟩).1.toOption =
        some (List.replicate (maxDepth + 1) 'a') := by
  have hsources : ∀ root name source, mirrors.sources root name = .ok source →
      ¬Joined source.text := by
    rintro root name source hs
    cases hs
    have hmirror : ¬Joined mirror := not_joined (by decide +kernel)
    exact hmirror
  have hwithin : ∀ t, mirrors.Makes t → Residual.Within mirrors.maxBlocks t.html := by
    intro t ht
    rw [html_of_makes ht]
    exact Residual.within_of_not_mem (by decide) _
  refine ⟨hsources, hwithin, ?_, by decide +kernel⟩
  exact ((compile_finishes mirrors hsources hwithin "index".toList []).2.1 _).mpr rfl

/-- A page that calls a template whose source is compiled without end. -/
def broken : Engine := .ofSources 1 fun _ path =>
  .ok ⟨path, if path = "index.xhtml".toList then "<Box/>".toList else joined⟩

/-- While the page is compiled, the template is asked for, and there is no end to that. -/
theorem not_finished_called :
    "components/Box".toList ∈ broken.requestedKeys "index".toList [] [] ∧
      (broken.precompile "components/Box".toList ⟨Cache.ofCapacity 1, []⟩).1 =
        .error .unclosedReference := by
  decide +kernel

end Engine

end Stencil
