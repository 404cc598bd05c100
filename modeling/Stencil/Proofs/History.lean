import Stencil.Proofs.Concurrent

namespace Stencil

/-- A call of an engine, or time that goes by. -/
inductive EngineCall where
  | setOption (name value : Text)
  | precompile (path : Text) (words : List UInt32)
  | compile (request : Request)
  | elapse (ms : Nat)

inductive EngineAnswer where
  | done
  | record (made : Except Error Template)
  | page (made : Except Error Text)
deriving DecidableEq

namespace Engine

/-- The engine after a call. -/
def after (e : Engine) : EngineCall → Engine
  | .setOption name value => (e.setOption name value .off).1
  | _ => e

def answer (e : Engine) (c : Cache) : EngineCall → EngineAnswer × Cache
  | .setOption name value => (.done, (e.setOption name value c).2)
  | .precompile path words =>
    let (made, w) := e.precompile path (⟨c, words⟩ : World Cache)
    (.record made, w.source)
  | .compile r =>
    let (made, w) := e.compile r.path r.scope (⟨c, r.words⟩ : World Cache)
    (.page made, w.source)
  | .elapse ms => (.done, c.modify (·.advance ms))

/-- What calls are answered, one after the other. -/
def answers (e : Engine) (c : Cache) : List EngineCall → List EngineAnswer
  | [] => []
  | call :: calls => (e.answer c call).1 :: answers (e.after call) (e.answer c call).2 calls

/-- Calls, each with the engine that it is made of. -/
def history (e : Engine) : List EngineCall → List (Engine × EngineCall)
  | [] => []
  | call :: calls => (e, call) :: history (e.after call) calls

/-- The keys of the templates that a call asks for. -/
def keysOf (e : Engine) : EngineCall → List Text
  | .precompile path _ => [e.key path]
  | .compile r => r.keys e
  | _ => []

/-- All that records depend on. -/
def making (e : Engine) : SourcePlace × Host × Text × Text × Bool :=
  (e.sources, e.host e.options, e.options.root, e.options.ext, e.options.markdown)

variable {e f : Engine}

theorem draft?_congr (h : e.making = f.making) (key source : Text) :
    draft? e.options key source = draft? f.options key source := by
  have hmarkdown : e.options.markdown = f.options.markdown := congrArg (·.2.2.2.2) h
  unfold draft?
  rw [hmarkdown]

theorem built_congr (h : e.making = f.making) (key : Text) :
    e.built e.options key = f.built f.options key := by
  have hsources : e.sources = f.sources := congrArg (·.1) h
  have hhost : e.host e.options = f.host f.options := congrArg (·.2.1) h
  have hroot : e.options.root = f.options.root := congrArg (·.2.2.1) h
  have hext : e.options.ext = f.options.ext := congrArg (·.2.2.2.1) h
  unfold built compileSource
  rw [hsources, hhost, hroot, hext]
  cases f.sources f.options.root (key ++ ['.'] ++ f.options.ext) with
  | error err => rfl
  | ok source =>
    dsimp only
    rw [build_eq, build_eq, draft?_congr h]

theorem calm_congr (h : e.making = f.making) {key : Text} (hc : e.Calm e.options key) :
    f.Calm f.options key where
  source source t hs hd := by
    have hsources : e.sources = f.sources := congrArg (·.1) h
    have hroot : e.options.root = f.options.root := congrArg (·.2.2.1) h
    have hext : e.options.ext = f.options.ext := congrArg (·.2.2.2.1) h
    rw [← hsources, ← hroot, ← hext] at hs
    exact hc.source source t hs (draft?_congr h key _ ▸ hd)
  record t ht := hc.record t ((built_congr h key).trans ht)

theorem leftover_congr (h : e.making = f.making) (hf : e.functions.Deterministic)
    {template : Template} (hc : Placeholder.Calm template.html) (constants : Scope) :
    e.leftover e.options template constants = f.leftover f.options template constants := by
  have hhost : e.host e.options = f.host f.options := congrArg (·.2.1) h
  have hfold : (Coupling.still nowhere nowhere).Alike
      (Page.fold (e.site e.options : Site Cache) template constants)
      (Page.fold (f.site f.options : Site Cache) template constants) :=
    Page.alike_fold_still hhost hf hc constants nowhere nowhere
  have hmade : (Coupling.still nowhere nowhere).Alike
      (e.buildFolded e.options template constants : StateM (World Cache) Template)
      (f.buildFolded f.options template constants) := hfold.bind fun out => .pure _
  have hrun := congrArg Prod.fst hmade.still.1
  exact hrun

/-- What records hold is the same for engines that make them alike. -/
theorem sound_congr {d : Demand} (h : e.making = f.making) (ha : d.Apart e) {key : Text}
    {template : Template} (hs : d.Sound e key template) : d.Sound f key template where
  built hk := (built_congr h key).symm.trans (hs.built hk)
  folded name base constants hk hd he hb hf := by
    have hbase : e.built e.options name = .ok base := (built_congr h name).trans hb
    rw [hs.folded name base constants hk hd he hbase hf]
    exact leftover_congr h ha.functions ((ha.calm name hk).record base hbase) constants

/-- The options on which records depend, the place of the assets aside. -/
theorem making_setOption {name value : Text} {c : Cache}
    (hname : isVital (Text.trim name) = false ∨
      e.option? (Text.trim name) = some (Text.trim value))
    (hassets : (e.setOption name value c).1.options.assets = e.options.assets) :
    (e.setOption name value c).1.making = e.making := by
  have hsame : ∀ vital : String, isVital vital.toList = true →
      Options.get? (Dictionary.insert e.store (Text.trim name) (Text.trim value)) vital =
        Options.get? e.store vital := by
    intro vital hvital
    unfold Options.get?
    rw [Dictionary.get?_insert]
    split
    next he =>
      rcases hname with hname | hname
      · rw [he, hvital] at hname
        cases hname
      · rw [← he, ← hname]
        rfl
    next => rfl
  have hroot := hsame "root" (by decide)
  have hext := hsame "ext" (by decide)
  have hmarkdown := hsame "markdown" (by decide)
  simp only [options, setOption, Options.ofStore] at hassets
  simp only [making, host, options, setOption, Options.ofStore, hroot, hext, hmarkdown, hassets]

theorem cacheAfterOption_cases (e : Engine) (name value : Text) {c : Cache}
    {sound : Text → Template → Prop} (h : c.Holds sound) :
    (isVital name = false ∨ e.option? name = some value) ∧
        (e.cacheAfterOption name value c).Holds sound ∨
      ∀ sound, (e.cacheAfterOption name value c).Holds sound := by
  unfold cacheAfterOption
  dsimp only
  split
  next => exact .inr fun sound => Cache.holds_clear _
  next hv =>
    refine .inl ⟨?_, ?_⟩
    · by_cases hvital : isVital name = true
      · exact .inr (by simpa [hvital] using hv)
      · exact .inl (by simpa using hvital)
    · split
      · cases Options.milliseconds? value with
        | none => exact h
        | some ms => exact h.modify fun _ hm => hm
      · exact h

section Histories

variable {calls : List EngineCall}

/-- The texts whose fingerprints tell what is left of templates for the calls. -/
def fingerprinted (e : Engine) (calls : List EngineCall) : Set Text :=
  {text | ∃ f r template, (f, EngineCall.compile r) ∈ e.history calls ∧
    f.built f.options (f.key r.path) = .ok template ∧
      text = template.fingerprint ++ Json.compact (.map r.constants)}

/-- Calls that ask for templates without random choices, and do not change where the assets are.
Distinct texts have distinct fingerprints, the constants for a page are told apart by their JSON
texts, and no template that is asked for has the key of what is left of one. -/
structure Steady (e : Engine) (calls : List EngineCall) : Prop where
  functions : e.functions.Deterministic
  assets : ∀ p ∈ e.history calls, (p.1.after p.2).options.assets = p.1.options.assets
  calm : ∀ p ∈ e.history calls, ∀ key ∈ p.1.keysOf p.2, p.1.Calm p.1.options key
  fingerprints : Set.InjOn Sha256.fingerprint (e.fingerprinted calls)
  constants : ∀ f r g s, (f, EngineCall.compile r) ∈ e.history calls →
    (g, EngineCall.compile s) ∈ e.history calls → f.key r.path = g.key s.path → r.ToldApart s
  keys : ∀ p ∈ e.history calls, ∀ q ∈ e.history calls, ∀ key ∈ p.1.keysOf p.2,
    ∀ other ∈ q.1.keysOf q.2, key ≠ foldedKey other

/-- What the calls ask of an engine that makes records as a certain one does. -/
def demand (e : Engine) (calls : List EngineCall) (f : Engine) : Demand where
  keys key := ∃ p ∈ e.history calls, p.1.making = f.making ∧ key ∈ p.1.keysOf p.2
  folds key constants := ∃ g r, (g, EngineCall.compile r) ∈ e.history calls ∧
    g.making = f.making ∧ key = g.key r.path ∧ constants = r.constants

theorem demand_congr {g : Engine} (h : f.making = g.making) :
    e.demand calls f = e.demand calls g := by
  unfold demand
  rw [h]

theorem functions_after (e : Engine) (call : EngineCall) :
    (e.after call).functions = e.functions := by
  cases call <;> rfl

theorem functions_history {p : Engine × EngineCall} (hp : p ∈ e.history calls) :
    p.1.functions = e.functions := by
  induction calls generalizing e with
  | nil => cases hp
  | cons call calls ih =>
    rcases List.mem_cons.mp hp with rfl | hp
    · rfl
    · exact (ih hp).trans (functions_after e call)

theorem Steady.apart (h : e.Steady calls) {call : EngineCall} (hf : (f, call) ∈ e.history calls) :
    (e.demand calls f).Apart f where
  functions := functions_history hf ▸ h.functions
  calm key hk := by
    obtain ⟨p, hp, hmaking, hkey⟩ := hk
    exact calm_congr hmaking (h.calm p hp key hkey)
  keys key other hk ho := by
    obtain ⟨p, hp, -, hkey⟩ := hk
    obtain ⟨q, hq, -, hother⟩ := ho
    exact h.keys p hp q hq key hkey other hother
  folds key template constants others hc ho hb hprint := by
    obtain ⟨g, r, hg, hmaking, rfl, rfl⟩ := hc
    obtain ⟨g', r', hg', hmaking', hpath, rfl⟩ := ho
    have hb' := (built_congr hmaking _).trans hb
    have hb'' := (built_congr hmaking' _).trans (hpath ▸ hb)
    have htext := h.fingerprints ⟨g, r, template, hg, hb', rfl⟩ ⟨g', r', template, hg', hb'', rfl⟩
      hprint
    exact h.constants g r g' r' hg hg' hpath (List.append_cancel_left htext)

/-- A cache whose records are those that the engine would make. -/
def Faithful (e : Engine) (calls : List EngineCall) (f : Engine) (c : Cache) : Prop :=
  c.Holds ((e.demand calls f).Sound f)

/-- A call is answered as it is without a cache, and leaves records that the engine would make. -/
theorem Steady.answer (h : e.Steady calls) {call : EngineCall} (hf : (f, call) ∈ e.history calls)
    {c : Cache} (hc : e.Faithful calls f c) :
    (f.answer c call).1 = (f.answer .off call).1 ∧
      e.Faithful calls (f.after call) (f.answer c call).2 := by
  have hapart := h.apart hf
  have hasked : ∀ key ∈ f.keysOf call, (e.demand calls f).keys key := fun key hk =>
    ⟨(f, call), hf, rfl, hk⟩
  cases call with
  | setOption name value =>
    refine ⟨rfl, ?_⟩
    rcases f.cacheAfterOption_cases (Text.trim name) (Text.trim value) hc with
      ⟨hname, hheld⟩ | hempty
    · have hmaking := making_setOption hname (h.assets _ hf)
      have hdemand : e.demand calls (f.after (.setOption name value)) = e.demand calls f :=
        demand_congr hmaking
      unfold Faithful
      rw [hdemand]
      exact hheld.mono fun _ _ hs => sound_congr hmaking.symm hapart hs
    · exact hempty _
  | precompile path words =>
    have hk := hasked _ (List.mem_singleton_self _)
    obtain ⟨source, hmade, -, -, hheld⟩ :=
      precompile_eq hapart Cache.keeps hk (n := 0) (s := ⟨c, words⟩) hc
    obtain ⟨source', hmade', -⟩ :=
      precompile_eq hapart Cache.keeps hk (n := 0) (s := ⟨Cache.off, words⟩) trivial
    have hanswer : ∀ c source, f.precompile path (⟨c, words⟩ : World Cache) =
        (f.built f.options (f.key path), ⟨source, words⟩) →
          f.answer c (.precompile path words) =
            (.record (f.built f.options (f.key path)), source) := by
      intro c source h
      rw [Engine.answer, h]
    rw [hanswer c source hmade, hanswer .off source' hmade']
    exact ⟨rfl, hheld⟩
  | compile r =>
    have hfold : (e.demand calls f).folds (f.key r.path) r.constants := ⟨f, r, hf, rfl, rfl, rfl⟩
    obtain ⟨hpage, -, -, hheld⟩ := compile_eq hapart Cache.keeps (s := ⟨c, r.words⟩) hc hasked
      fun _ => hfold
    obtain ⟨hpage', -⟩ := compile_eq hapart Cache.keeps (s := ⟨Cache.off, r.words⟩) trivial hasked
      fun _ => hfold
    exact ⟨congrArg EngineAnswer.page (hpage.trans hpage'.symm), hheld⟩
  | elapse ms => exact ⟨rfl, hc.modify fun _ hm => hm⟩

theorem Steady.answers (h : e.Steady calls) {rest : List EngineCall}
    (hrest : f.history rest ⊆ e.history calls) {c : Cache} (hc : e.Faithful calls f c) :
    f.answers c rest = f.answers .off rest := by
  induction rest generalizing f c with
  | nil => rfl
  | cons call rest ih =>
    have hf : (f, call) ∈ e.history calls := hrest List.mem_cons_self
    obtain ⟨hanswer, hafter⟩ := h.answer hf hc
    obtain ⟨-, hoff⟩ := h.answer hf (c := .off) trivial
    have hrest' : (f.after call).history rest ⊆ e.history calls := fun p hp =>
      hrest (List.mem_cons_of_mem _ hp)
    rw [Engine.answers, Engine.answers, hanswer, ih hrest' hafter, ih hrest' hoff]

/-- An engine with a cache in memory answers every call as it does without a cache, if no call
changes where the assets are. Records depend on the place of the assets too, and to set this empties
nothing. -/
theorem answers_eq (h : e.Steady calls) (capacity : Nat) :
    e.answers (.ofCapacity capacity) calls = e.answers .off calls :=
  h.answers (List.Subset.refl _) (MemoryCache.holds_of_entries_eq_nil rfl)

end Histories

/-- Two guests are shown in, and the hall is moved in between. -/
def visits : List EngineCall :=
  [.precompile "hall".toList [], .compile (Traffic.guest true),
    .setOption "components".toList "parts".toList, .compile (Traffic.guest false), .elapse 5,
    .setOption "root".toList "site".toList, .compile (Traffic.guest true)]

theorem steady_visits : Traffic.hall.Steady visits := by
  have hkeys : ∀ p ∈ Traffic.hall.history visits, ∀ key ∈ p.1.keysOf p.2,
      key = "hall".toList := by decide +kernel
  have hrecord : ∀ p ∈ Traffic.hall.history visits, ∀ key ∈ p.1.keysOf p.2,
      ∀ t ∈ (p.1.built p.1.options key).toOption, Placeholder.IsQuiet t.html := by decide +kernel
  have hdraft : ∀ p ∈ Traffic.hall.history visits, ∀ key ∈ p.1.keysOf p.2,
      ∀ t ∈ draft? p.1.options key "\x7b\x7b$name\x7d\x7d".toList,
        Placeholder.IsQuiet t.html := by decide +kernel
  have hsources : ∀ p ∈ Traffic.hall.history visits, p.1.sources = Traffic.hall.sources := by
    simp [visits, history, after, setOption]
  have hrequests : ∀ f r, (f, EngineCall.compile r) ∈ Traffic.hall.history visits →
      ∃ first, r = Traffic.guest first := by
    intro f r h
    simp [visits, history] at h
    rcases h with ⟨-, rfl⟩ | ⟨-, rfl⟩ | ⟨-, rfl⟩ <;> exact ⟨_, rfl⟩
  refine ⟨fun name f hf => (Option.not_mem_none _ hf).elim, by decide +kernel, ?_, ?_, ?_, ?_⟩
  · intro p hp key hk
    refine calm_of_isQuiet (fun source hs => ?_) (hrecord p hp key hk)
    rw [hsources p hp] at hs
    cases hs
    exact hdraft p hp key hk
  · -- the source is the same each time, so the texts differ by the guest only
    have htext : ∀ text ∈ Traffic.hall.fingerprinted visits, ∃ first,
        text = Sha256.fingerprint "\x7b\x7b$name\x7d\x7d".toList ++
          Json.compact (.map (Traffic.guest first).constants) := by
      rintro text ⟨f, r, t, hf, hb, rfl⟩
      obtain ⟨first, rfl⟩ := hrequests f r hf
      obtain ⟨source, hs, -, hprint⟩ := exists_source_of_built hb
      rw [hsources _ hf] at hs
      cases hs
      exact ⟨first, by rw [hprint]⟩
    have hne : Sha256.fingerprint (Sha256.fingerprint "\x7b\x7b$name\x7d\x7d".toList ++
          Json.compact (.map (Traffic.guest true).constants)) ≠
        Sha256.fingerprint (Sha256.fingerprint "\x7b\x7b$name\x7d\x7d".toList ++
          Json.compact (.map (Traffic.guest false).constants)) := by decide +kernel
    intro text ht other ho h
    obtain ⟨first, rfl⟩ := htext text ht
    obtain ⟨second, rfl⟩ := htext other ho
    cases first <;> cases second
    · rfl
    · exact absurd h.symm hne
    · exact absurd h hne
    · rfl
  · intro f r g s hr hs _
    obtain ⟨first, rfl⟩ := hrequests f r hr
    obtain ⟨second, rfl⟩ := hrequests g s hs
    exact Traffic.toldApart_guest first second
  · intro p hp q hq key hk other ho
    rw [hkeys p hp key hk, hkeys q hq other ho]
    decide

theorem answers_eq_visits :
    Traffic.hall.answers (.ofCapacity 1) visits = Traffic.hall.answers .off visits :=
  answers_eq steady_visits 1

/-- A site whose templates show one video. -/
def cinema : Engine := .ofSources 1 fun _ path => .ok ⟨path, "<_youtube dQw4w9WgXcQ/>".toList⟩

/-- The place of the assets stands in a record, and setting it does not empty the cache. -/
theorem answers_ne_assets :
    let page : EngineCall := .compile ⟨"index".toList, [], []⟩
    let calls := [page, .setOption "assets".toList "/assets".toList, page]
    cinema.answers (.ofCapacity 1) calls ≠ cinema.answers .off calls := by
  decide +kernel

end Engine

end Stencil
