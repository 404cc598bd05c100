import Stencil.Proofs.Record

namespace Stencil

/-- A storage that keeps nothing. It notes the keys that it is asked for. -/
structure Notes where
  keys : List Text
deriving Repr, DecidableEq

instance : Storage Notes where
  get notes key := (none, ⟨notes.keys ++ [key]⟩)
  set notes _ _ := notes

/-- What is asked of an engine: the keys of templates, and with which constants one is folded. -/
structure Demand where
  keys : Text → Prop
  folds : Text → Scope → Prop

namespace Demand

/-- Was a key asked for that nobody was to ask for? -/
def Exceeded (d : Demand) (notes : Notes) : Prop := ∃ key ∈ notes.keys, ¬d.keys key

/-- Templates that are asked for are calm, and none has the key of another one that is folded. The
fingerprints of what is left of one tell the constants. The key of a template that is folded gives a
second key, under which no template of its own may be asked for. -/
structure Apart (d : Demand) (e : Engine) : Prop where
  functions : e.functions.Deterministic
  calm : ∀ key, d.keys key → e.Calm e.options key
  keys : ∀ key other, d.keys key → d.keys other → key ≠ Engine.foldedKey other
  folds : ∀ key template constants others, d.folds key constants → d.folds key others →
    e.built e.options key = .ok template →
      Engine.foldedFingerprint template constants = Engine.foldedFingerprint template others →
        constants = others

/-- Is a template under a key what was asked for: the one that its source is compiled to, or what is
left of one with the constants that its fingerprint tells? -/
structure Sound (d : Demand) (e : Engine) (key : Text) (template : Template) : Prop where
  built : d.keys key → e.built e.options key = .ok template
  folded : ∀ name base constants, d.keys name → d.folds name constants →
    key = Engine.foldedKey name → e.built e.options name = .ok base →
      template.fingerprint = Engine.foldedFingerprint base constants →
        template = e.leftover e.options base constants

end Demand

/-- A storage gives sound templates only, and keeps those that are set. What holds of it may depend
on how often it was accessed. -/
structure Storage.Keeps {σ : Type} [Storage σ] (holds : Nat → σ → Prop)
    (sound : Text → Template → Prop) : Prop where
  get : ∀ n s key, holds n s →
    (∀ t ∈ (Storage.get s key).1, sound key t) ∧ holds (n + 1) (Storage.get s key).2
  set : ∀ n s key t, holds n s → sound key t → holds (n + 1) (Storage.set s key t)

namespace Engine

variable {σ : Type}

section Stages

variable [Storage σ]

/-- The template that is rendered for some data when one was compiled. What is left of it if there
are constant data is made in a given way. -/
def leftBy (fold : Template → Scope → StateM (World σ) Template) (scope : Scope) :
    Except Error Template → StateM (World σ) (Except Error Template)
  | .error err => return .error err
  | .ok template =>
    if (Constants.ofScope scope).isEmpty then return .ok template
    else .ok <$> fold template (Constants.ofScope scope)

/-- The template that is rendered for a page. -/
def prepared (e : Engine) (path : Text) (scope : Scope) :
    StateM (World σ) (Except Error Template) := do
  leftBy (e.folded e.options) scope (← e.precompile path)

/-- A template with the one of its layout. -/
def withLayout (e : Engine) (scope : Scope) :
    Except Error Template → StateM (World σ) (Except Error (Template × Option Template))
  | .error err => return .error err
  | .ok template => do
    let name := layoutName e.options (Constants.expose scope)
    return .ok (template, ← Page.layout? (e.site e.options) template name)

/-- The templates that a page is rendered from. -/
def readied (e : Engine) (path : Text) (scope : Scope) :
    StateM (World σ) (Except Error (Template × Option Template)) := do
  e.withLayout scope (← e.prepared path scope)

def rendering (e : Engine) (scope : Scope) (template : Template) : Rendering σ Text :=
  Rendering.template (.root (e.site e.options) .late template) (Constants.expose scope)

/-- The page that comes of the templates it is rendered from. -/
def pageOf (e : Engine) (scope : Scope) :
    Except Error (Template × Option Template) → StateM (World σ) (Except Error Text)
  | .error err => return .error err
  | .ok (template, layout) => do
    let ((page, layout), fragments, _) ← Page.start do
      let page ← e.rendering scope template
      return (page, ← layout.mapM (e.rendering scope))
    return .ok
      (Page.finish (e.site e.options : Site σ) (Constants.expose scope) fragments page layout)

end Stages

section Alike

variable {τ : Type} [Storage σ] [Storage τ] {c : Coupling (World σ) (World τ)} {e : Engine}

theorem alike_precompile (hget : ∀ key, c.Alike (cached key) (cached key))
    (hset : ∀ key template, c.Alike (keep key template) (keep key template))
    (hdraw : ∀ {α : Type} (r : Random α), c.Alike (World.draw r) (World.draw r)) (path : Text) :
    c.Alike (e.precompile path) (e.precompile path) := by
  refine (hget _).bind fun found => ?_
  cases found with
  | some template => exact .pure _
  | none =>
    refine (alike_compileSource e e.options _ fun _ _ _ _ _ _ _ _ _ => hdraw _).bind fun made => ?_
    cases made with
    | error err => exact .pure _
    | ok template => exact (hset _ template).bind fun _ => .pure _

/-- Templates that others name are loaded alike if templates at paths are. -/
theorem alike_load (hmade : ∀ path, c.Alike (e.precompile path) (e.precompile path))
    (kind : TemplateKind) (name : Text) : c.Alike (e.load kind name) (e.load kind name) := by
  unfold load
  generalize candidates e.options kind name = paths
  induction paths with
  | nil => exact .pure none
  | cons path more ih =>
    refine (hmade path).bind fun found => ?_
    cases found with
    | ok template => exact .pure _
    | error err =>
      dsimp only
      split
      · exact ih
      · exact .pure none

theorem alike_renderWith
    (hload : ∀ kind name, c.Alike (e.load kind name) (e.load kind name))
    (hdraw : ∀ {α : Type} (r : Random α), c.Alike (World.draw r) (World.draw r))
    (template : Template) (scope : Scope) :
    c.Alike (e.renderWith e.options template scope) (e.renderWith e.options template scope) :=
  Page.alike_compile (a := (e.site e.options : Site σ)) (b := (e.site e.options : Site τ)) rfl hload
    hdraw template scope _

theorem alike_folded (hget : ∀ key, c.Alike (cached key) (cached key))
    (hset : ∀ key template, c.Alike (keep key template) (keep key template))
    (hdraw : ∀ {α : Type} (r : Random α), c.Alike (World.draw r) (World.draw r))
    (template : Template) (constants : Scope) :
    c.Alike (e.folded e.options template constants) (e.folded e.options template constants) := by
  refine (hget _).bind fun found => ?_
  cases found.filter fun t => t.fingerprint = foldedFingerprint template constants with
  | some found => exact .pure found
  | none =>
    refine (alike_buildFolded e e.options template constants hdraw).bind fun made => ?_
    exact (hset _ made).bind fun _ => .pure made

theorem alike_withLayout (hload : ∀ kind name, c.Alike (e.load kind name) (e.load kind name))
    (scope : Scope) (found : Except Error Template) :
    c.Alike (e.withLayout scope found) (e.withLayout scope found) := by
  cases found with
  | error err => exact .pure _
  | ok template =>
    exact (Page.alike_layout? (a := (e.site e.options : Site σ)) (b := (e.site e.options : Site τ))
      hload template _).bind fun layout => .pure _

theorem alike_rendering (hload : ∀ kind name, c.Alike (e.load kind name) (e.load kind name))
    (hdraw : ∀ {α : Type} (r : Random α), c.Alike (World.draw r) (World.draw r)) (scope : Scope)
    (template : Template) :
    c.progress.Alike (e.rendering scope template) (e.rendering scope template) :=
  Page.alike_render (a := (e.site e.options : Site σ)) (b := (e.site e.options : Site τ)) rfl hload
    hdraw template _

theorem alike_prepared (hget : ∀ key, c.Alike (cached key) (cached key))
    (hset : ∀ key template, c.Alike (keep key template) (keep key template))
    (hdraw : ∀ {α : Type} (r : Random α), c.Alike (World.draw r) (World.draw r)) (path : Text)
    (scope : Scope) : c.Alike (e.prepared path scope) (e.prepared path scope) := by
  refine (alike_precompile hget hset hdraw path).bind fun found => ?_
  cases found with
  | error err => exact .pure _
  | ok template =>
    unfold leftBy
    dsimp only
    split
    · exact .pure _
    · exact (alike_folded hget hset hdraw template _).map _

/-- All that readying a page does with a storage is to get and to set templates. -/
theorem alike_readied (hget : ∀ key, c.Alike (cached key) (cached key))
    (hset : ∀ key template, c.Alike (keep key template) (keep key template))
    (hdraw : ∀ {α : Type} (r : Random α), c.Alike (World.draw r) (World.draw r)) (path : Text)
    (scope : Scope) : c.Alike (e.readied path scope) (e.readied path scope) :=
  (alike_prepared hget hset hdraw path scope).bind fun found =>
    alike_withLayout (alike_load (alike_precompile hget hset hdraw)) scope found

end Alike

/-- A storage, accessed no more than twice for each key that is noted and some times besides, and
the notes. The comparison is lost with the first key that nobody was to ask for. -/
def noted (d : Demand) (holds : Nat → σ → Prop) (besides : Nat) :
    Coupling (World σ) (World Notes) where
  inStep s t :=
    s.words = t.words ∧ ∃ n, n ≤ 2 * t.source.keys.length + besides ∧ holds n s.source
  lost _ t := d.Exceeded t.source

variable {e : Engine} {d : Demand} {holds : Nat → σ → Prop} {b : Nat}

theorem alike_draw_noted (d : Demand) (holds : Nat → σ → Prop) (b : Nat) {α : Type}
    (r : Random α) : (noted d holds b).Alike (World.draw r) (World.draw r) :=
  World.alike_draw (c := noted d holds b) (fun _ _ h => h.1) (fun _ _ _ h => ⟨rfl, h.2⟩)
    (fun _ _ _ h => h) (fun _ _ _ h => h) r

/-- Without a storage a template is compiled from its source. -/
theorem precompile_noting (e : Engine) (path : Text) (t : World Notes) :
    e.precompile path t =
      e.compileSource e.options (e.key path)
        { t with source := ⟨t.source.keys ++ [e.key path]⟩ } := by
  obtain ⟨out, hout⟩ : ∃ out, e.compileSource e.options (e.key path)
      { t with source := (⟨t.source.keys ++ [e.key path]⟩ : Notes) } = out := ⟨_, rfl⟩
  rw [hout]
  obtain ⟨made, t'⟩ := out
  simp only [key] at hout
  simp only [precompile, bind, StateT.bind, cached, Storage.get, hout]
  cases made <;> rfl

theorem lost_of_request {s : World σ} {t : World Notes} {path : Text} (hk : ¬d.keys (e.key path)) :
    (noted d holds b).lost s (e.precompile path t).2 := by
  rw [precompile_noting]
  refine (alike_compileSource e e.options _ fun _ _ _ _ _ _ _ _ call =>
    alike_draw_noted d holds b _).right s _ ?_
  exact ⟨e.key path, by simp, hk⟩

variable [Storage σ]

theorem compile_prepared (e : Engine) (path : Text) (scope : Scope) (s : World σ) :
    e.compile path scope s =
      match e.prepared path scope s with
      | (.error err, s) => (.error err, s)
      | (.ok template, s) =>
        (Except.ok <$> e.renderWith e.options template (Constants.expose scope)) s := by
  simp only [compile, prepared, bind, StateT.bind]
  cases e.precompile path s with
  | mk found s =>
    cases found with
    | error err => rfl
    | ok template =>
      dsimp only [leftBy]
      split <;> rfl

/-- A page is readied, and then rendered. -/
theorem compile_readied (e : Engine) (path : Text) (scope : Scope) (s : World σ) :
    e.compile path scope s =
      e.pageOf scope (e.readied path scope s).1 (e.readied path scope s).2 := by
  rw [compile_prepared, readied]
  simp only [bind, StateT.bind]
  cases e.prepared path scope s with
  | mk found s =>
    cases found with
    | error err => rfl
    | ok template => rfl

/-- The template that is rendered for a page. No look is taken at what is left of it from before. -/
def preparedAfresh (e : Engine) (path : Text) (scope : Scope) :
    StateM (World σ) (Except Error Template) := do
  leftBy (e.buildFolded e.options) scope (← e.precompile path)

def readiedAfresh (e : Engine) (path : Text) (scope : Scope) :
    StateM (World σ) (Except Error (Template × Option Template)) := do
  e.withLayout scope (← e.preparedAfresh path scope)

def compileAfresh (e : Engine) (path : Text) (scope : Scope) :
    StateM (World σ) (Except Error Text) := do
  e.pageOf scope (← e.readiedAfresh path scope)

def noting (words : List UInt32) : World Notes := ⟨⟨[]⟩, words⟩

/-- The page for some data if nothing is stored. -/
def pageAlone (e : Engine) (path : Text) (scope : Scope) (words : List UInt32) :
    Except Error Text :=
  (e.compileAfresh path scope (noting words)).1

/-- The keys of the templates that are asked for when a page is compiled. -/
def requestedKeys (e : Engine) (path : Text) (scope : Scope) (words : List UInt32) : List Text :=
  (e.compileAfresh path scope (noting words)).2.source.keys

theorem precompile_found {s : World σ} {path : Text} {template : Template} {source : σ}
    (h : Storage.get s.source (e.key path) = (some template, source)) :
    e.precompile path s = (.ok template, { s with source }) := by
  simp only [key] at h
  simp only [precompile, bind, StateT.bind, cached, h]
  rfl

theorem precompile_missed (hf : e.functions.Deterministic) {s : World σ} {path : Text}
    (hc : e.Calm e.options (e.key path)) {source : σ}
    (h : Storage.get s.source (e.key path) = (none, source)) :
    e.precompile path s =
      match e.built e.options (e.key path) with
      | .error err => (.error err, { s with source })
      | .ok template =>
        (.ok template, { s with source := Storage.set source (e.key path) template }) := by
  have hmade := compileSource_eq hf hc { s with source }
  simp only [key] at h hmade ⊢
  simp only [precompile, bind, StateT.bind, cached, h, hmade]
  cases e.built e.options (keyFor path e.options.ext) <;> rfl

/-- A template that is asked for comes from its source, if what is stored is sound. -/
theorem precompile_eq (ha : d.Apart e) (hs : Storage.Keeps holds (d.Sound e)) {path : Text}
    (hk : d.keys (e.key path)) {n : Nat} {s : World σ} (hI : holds n s.source) :
    ∃ source, e.precompile path s = (e.built e.options (e.key path), { s with source }) ∧
      ∃ m, m ≤ n + 2 ∧ holds m source := by
  have hcalm := ha.calm _ hk
  obtain ⟨hfound, hget⟩ := hs.get n s.source (e.key path) hI
  cases hg : Storage.get s.source (e.key path) with
  | mk found source =>
    rw [hg] at hfound hget
    cases found with
    | some template =>
      rw [precompile_found hg, (hfound template rfl).built hk]
      exact ⟨source, rfl, n + 1, by omega, hget⟩
    | none =>
      rw [precompile_missed ha.functions hcalm hg]
      cases hb : e.built e.options (e.key path) with
      | error err => exact ⟨source, rfl, n + 1, by omega, hget⟩
      | ok template =>
        have hsound : d.Sound e (e.key path) template :=
          ⟨fun _ => hb, fun name _ _ hname _ he => absurd he (ha.keys _ _ hk hname)⟩
        exact ⟨_, rfl, n + 2, Nat.le_refl _, hs.set _ _ _ _ hget hsound⟩

theorem alike_precompile_noted (ha : d.Apart e) (hs : Storage.Keeps holds (d.Sound e))
    (path : Text) : (noted d holds b).Alike (e.precompile path) (e.precompile path) where
  left s t hl := hl
  right s t hl := by
    rw [precompile_noting]
    refine (alike_compileSource e e.options _ fun _ _ _ _ _ _ _ _ call =>
      alike_draw_noted d holds b _).right s _ ?_
    obtain ⟨key, hm, hk⟩ := hl
    exact ⟨key, by simp [hm], hk⟩
  step s t hst := by
    by_cases hk : d.keys (e.key path)
    swap
    · exact .inl (lost_of_request hk)
    obtain ⟨hwords, n, hn, hI⟩ := hst
    obtain ⟨source, hmade, m, hm, hI'⟩ := precompile_eq ha hs hk hI
    rw [hmade, precompile_noting, compileSource_eq ha.functions (ha.calm _ hk)]
    have hlength : (t.source.keys ++ [e.key path]).length = t.source.keys.length + 1 := by simp
    exact .inr ⟨rfl, hwords, m, by dsimp only; omega, hI'⟩

theorem alike_load_noted (ha : d.Apart e) (hs : Storage.Keeps holds (d.Sound e))
    (kind : TemplateKind) (name : Text) :
    (noted d holds b).Alike (e.load kind name) (e.load kind name) :=
  alike_load (alike_precompile_noted ha hs) kind name

theorem alike_leftBy (e : Engine) (scope : Scope) (found : Except Error Template) :
    (noted d holds b).Alike
      (leftBy (e.buildFolded e.options) scope found : StateM (World σ) (Except Error Template))
      (leftBy (e.buildFolded e.options) scope found) := by
  cases found with
  | error err => exact .pure _
  | ok template =>
    unfold leftBy
    dsimp only
    split
    · exact .pure _
    · exact (alike_buildFolded e e.options template _ (alike_draw_noted d holds b)).map _

theorem alike_rendering_noted (ha : d.Apart e) (hs : Storage.Keeps holds (d.Sound e))
    (scope : Scope) (template : Template) : (noted d holds b).progress.Alike
      (e.rendering scope template) (e.rendering scope template) :=
  alike_rendering (alike_load_noted ha hs) (alike_draw_noted d holds b) scope template

theorem alike_pageOf (ha : d.Apart e) (hs : Storage.Keeps holds (d.Sound e)) (scope : Scope)
    (found : Except Error (Template × Option Template)) :
    (noted d holds b).Alike (e.pageOf scope found) (e.pageOf scope found) := by
  cases found with
  | error err => exact .pure _
  | ok templates =>
    refine (Page.alike_start ((alike_rendering_noted ha hs scope _).bind fun page => ?_)).bind
      fun out => .pure _
    exact (Coupling.Alike.mapOption _ fun layout _ => alike_rendering_noted ha hs scope layout).bind
      fun layout => .pure _

theorem foldedKey_inj {key other : Text} : foldedKey key = foldedKey other ↔ key = other :=
  List.append_left_inj _

/-- What is left of a template is what folding it gives, whether it was stored or not. -/
theorem folded_eq (ha : d.Apart e) (hs : Storage.Keeps holds (d.Sound e)) {name : Text}
    {base : Template} {constants : Scope} (hk : d.keys name) (hd : d.folds name constants)
    (hb : e.built e.options name = .ok base) {n : Nat} {s : World σ} (hI : holds n s.source) :
    ∃ source, e.folded e.options base constants s =
        (e.leftover e.options base constants, { s with source }) ∧
      ∃ m, m ≤ n + 2 ∧ holds m source := by
  obtain rfl := path_of_built hb
  have hmade : ∀ w : World σ, e.buildFolded e.options base constants w =
      (e.leftover e.options base constants, w) :=
    buildFolded_eq ha.functions ((ha.calm _ hk).record base hb) constants
  have hsound : d.Sound e (foldedKey base.path) (e.leftover e.options base constants) := by
    refine ⟨fun h => absurd rfl (ha.keys _ _ h hk), fun other base' others _ hd' he hb' hf => ?_⟩
    rw [← foldedKey_inj.mp he] at hd' hb'
    cases hb.symm.trans hb'
    rw [ha.folds _ base constants others hd hd' hb hf]
  cases hg : Storage.get s.source (foldedKey base.path) with
  | mk found source =>
    obtain ⟨hfound, hget⟩ := hs.get n s.source (foldedKey base.path) hI
    rw [hg] at hfound hget
    simp only [folded, bind, StateT.bind, cached, hg]
    cases hf : found.filter fun t => t.fingerprint = foldedFingerprint base constants with
    | some template =>
      obtain ⟨hmem, hprint⟩ := Option.filter_eq_some_iff.mp hf
      have := (hfound template hmem).folded _ _ _ hk hd rfl hb (by simpa using hprint)
      exact ⟨source, by rw [this]; rfl, n + 1, by omega, hget⟩
    | none =>
      refine ⟨Storage.set source (foldedKey base.path) (e.leftover e.options base constants), ?_,
        n + 2, Nat.le_refl _, hs.set _ _ _ _ hget hsound⟩
      simp only [StateT.bind, hmade]
      rfl

/-- What is left of a template may come from the storage. -/
theorem leftBy_step (ha : d.Apart e) (hs : Storage.Keeps holds (d.Sound e)) {name : Text}
    {scope : Scope} (hk : d.keys name) (hfold : (Constants.ofScope scope).isEmpty = false →
      d.folds name (Constants.ofScope scope))
    {s : World σ} {t : World Notes} (hst : (noted d holds b).inStep s t) :
    let found := e.built e.options name
    (leftBy (e.folded e.options) scope found s).1 =
        (leftBy (e.buildFolded e.options) scope found t).1 ∧
      (noted d holds (b + 2)).inStep (leftBy (e.folded e.options) scope found s).2
        (leftBy (e.buildFolded e.options) scope found t).2 := by
  obtain ⟨hwords, n, hn, hI⟩ := hst
  have hlater : (noted d holds (b + 2)).inStep s t := ⟨hwords, n, by omega, hI⟩
  intro found
  cases hb : found with
  | error err => exact ⟨rfl, hlater⟩
  | ok template =>
    by_cases hempty : (Constants.ofScope scope).isEmpty = true
    · simp only [leftBy, if_pos hempty]
      exact ⟨rfl, hlater⟩
    · obtain ⟨source, hf, m, hm, hI'⟩ :=
        folded_eq ha hs hk (hfold (by simpa using hempty)) hb hI
      have hmade : e.buildFolded e.options template (Constants.ofScope scope) t =
          (e.leftover e.options template (Constants.ofScope scope), t) :=
        buildFolded_eq ha.functions ((ha.calm _ hk).record template hb) _ t
      have hmap : ∀ {ρ : Type} (fold : StateM (World ρ) Template) (w : World ρ),
          (Except.ok (ε := Error) <$> fold) w = (.ok (fold w).1, (fold w).2) := fun _ _ => rfl
      simp only [leftBy, if_neg hempty, hmap, hf, hmade]
      exact ⟨trivial, hwords, m, by omega, hI'⟩

/-- The template that is rendered for a page is the one that is made when nothing is stored. -/
theorem prepared_step (ha : d.Apart e) (hs : Storage.Keeps holds (d.Sound e)) {path : Text}
    {scope : Scope} (hfold : (Constants.ofScope scope).isEmpty = false →
      d.folds (e.key path) (Constants.ofScope scope))
    {s : World σ} {t : World Notes} (hst : (noted d holds b).inStep s t) :
    d.Exceeded (e.preparedAfresh path scope t).2.source ∨
      (e.prepared path scope s).1 = (e.preparedAfresh path scope t).1 ∧
        (noted d holds (b + 2)).inStep (e.prepared path scope s).2
          (e.preparedAfresh path scope t).2 := by
  have hleft : ∀ found, (noted d holds b).Alike
      (leftBy (e.buildFolded e.options) scope found : StateM (World σ) (Except Error Template))
      (leftBy (e.buildFolded e.options) scope found) := alike_leftBy e scope
  have hkept : (noted d holds b).lost s (e.precompile path t).2 →
      d.Exceeded (e.preparedAfresh path scope t).2.source := (hleft _).right s _
  by_cases hk : d.keys (e.key path)
  swap
  · exact .inl (hkept (lost_of_request hk))
  rcases (alike_precompile_noted (b := b) ha hs path).step s t hst with hl | ⟨hr, hst'⟩
  · exact .inl (hkept hl)
  · have hbuilt : (e.precompile path t).1 = e.built e.options (e.key path) := by
      rw [precompile_noting, compileSource_eq ha.functions (ha.calm _ hk)]
    have hstep := leftBy_step ha hs hk hfold hst'
    simp only [← hbuilt] at hstep
    refine .inr ?_
    change (leftBy (e.folded e.options) scope (e.precompile path s).1
      (e.precompile path s).2).1 = _ ∧ (noted d holds (b + 2)).inStep
        (leftBy (e.folded e.options) scope (e.precompile path s).1 (e.precompile path s).2).2 _
    rw [hr]
    exact hstep

/-- The templates that a page is rendered from are those that it has when nothing is stored. -/
theorem readied_step (ha : d.Apart e) (hs : Storage.Keeps holds (d.Sound e)) {path : Text}
    {scope : Scope} (hfold : (Constants.ofScope scope).isEmpty = false →
      d.folds (e.key path) (Constants.ofScope scope))
    {s : World σ} {t : World Notes} (hst : (noted d holds b).inStep s t) :
    d.Exceeded (e.readiedAfresh path scope t).2.source ∨
      (e.readied path scope s).1 = (e.readiedAfresh path scope t).1 ∧
        (noted d holds (b + 2)).inStep (e.readied path scope s).2
          (e.readiedAfresh path scope t).2 := by
  have hlayout := fun found => alike_withLayout (alike_load_noted (b := b + 2) ha hs) scope found
  rcases prepared_step ha hs hfold hst with hl | ⟨hr, hst'⟩
  · exact .inl ((hlayout _).right s _ hl)
  · have hstep := (hlayout (e.preparedAfresh path scope t).1).step _ _ hst'
    change _ ∨ (e.withLayout scope (e.prepared path scope s).1 (e.prepared path scope s).2).1 = _ ∧
      (noted d holds (b + 2)).inStep
        (e.withLayout scope (e.prepared path scope s).1 (e.prepared path scope s).2).2 _
    rw [hr]
    exact hstep

/-- A page compiled with a storage of sound templates is the page that is compiled with none. -/
theorem compile_eq (ha : d.Apart e) (hs : Storage.Keeps holds (d.Sound e)) {path : Text}
    {scope : Scope} {s : World σ} (hI : holds 0 s.source)
    (hreq : ∀ key ∈ e.requestedKeys path scope s.words, d.keys key)
    (hfold : (Constants.ofScope scope).isEmpty = false →
      d.folds (e.key path) (Constants.ofScope scope)) :
    (e.compile path scope s).1 = e.pageAlone path scope s.words ∧
      ∃ n ≤ 2 * (e.requestedKeys path scope s.words).length + 2,
        holds n (e.compile path scope s).2.source := by
  have hnot : ¬d.Exceeded (e.compileAfresh path scope (noting s.words)).2.source := by
    rintro ⟨key, hm, hk⟩
    exact hk (hreq key hm)
  have hpage := fun found => alike_pageOf (b := 2) ha hs scope found
  rw [compile_readied]
  rcases readied_step (b := 0) ha hs hfold (s := s) (t := noting s.words)
    ⟨rfl, 0, Nat.zero_le _, hI⟩ with hl | ⟨hr, hst⟩
  · exact absurd ((hpage _).right s _ hl) hnot
  · have hstep := (hpage (e.readied path scope s).1).step _ _ hst
    rw [hr] at hstep ⊢
    rcases hstep with hl | ⟨hr, -, n, hn, hI⟩
    · exact absurd hl hnot
    · exact ⟨hr, n, hn, hI⟩

end Engine

end Stencil
