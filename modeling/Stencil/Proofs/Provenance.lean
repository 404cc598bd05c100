import Stencil.Proofs.Record

namespace Stencil

variable {σ τ α : Type}

namespace Coupling

/-- Two worlds with the same words, in which nothing but these may change. -/
def equalWords (s₀ : σ) (t₀ : τ) : Coupling (World σ) (World τ) where
  inStep s t := s.words = t.words ∧ s.source = s₀ ∧ t.source = t₀
  lost _ _ := False

theorem alike_draw_equalWords (s₀ : σ) (t₀ : τ) (r : Random α) :
    (equalWords s₀ t₀).Alike (World.draw r) (World.draw r) :=
  World.alike_draw (c := equalWords s₀ t₀) (fun _ _ h => h.1) (fun _ _ _ h => ⟨rfl, h.2⟩)
    (fun _ _ _ h => h) (fun _ _ _ h => h) r

/-- What needs nothing but words is the same in all worlds that have them. -/
theorem Alike.run_eq {m : StateM (World σ) α} {n : StateM (World τ) α} {s : World σ} {t : World τ}
    (h : (equalWords s.source t.source).Alike m n) (hw : s.words = t.words) :
    m s = ((n t).1, { s with words := (n t).2.words }) := by
  obtain ⟨hr, hwords, hs, -⟩ := (h.step s t ⟨hw, rfl, rfl⟩).resolve_left id
  refine Prod.ext hr ?_
  rw [← hwords, ← hs]

end Coupling

/-- A site with what a host gives, and no templates that others can call. -/
def Host.bare (host : Host) : Site Cache := { host with load := fun _ _ => pure none }

namespace Template

/-- What is left of a template when it is folded with some random words. -/
def left (base : Template) (host : Host) (constants : Scope) (words : List UInt32) : Template :=
  let out := (Page.fold host.bare base constants ⟨.off, words⟩).1
  { base with
    html := out.1, attrs := out.2, fingerprint := Engine.foldedFingerprint base constants }

/-- Is this what a source is compiled to under a name, or what is left of that? -/
inductive From (host : Host) (options : Options) (name source : Text) : Template → Prop where
  | built {t : Template} (words : List UInt32)
      (h : (Engine.build host options name source (⟨.off, words⟩ : World Cache)).1 = .ok t) :
      From host options name source t
  | left {base : Template} (h : From host options name source base) (constants : Scope)
      (words : List UInt32) : From host options name source (base.left host constants words)

end Template

/-- Tags are folded in the same way whatever is stored. -/
theorem Page.fold_run (site : Site σ) (base : Template) (constants : Scope) (w : World σ) :
    ∃ words, Page.fold site base constants w =
      ((Page.fold site.toHost.bare base constants ⟨.off, w.words⟩).1, { w with words }) := by
  have hfold : (Coupling.equalWords w.source Cache.off).Alike (Page.fold site base constants)
      (Page.fold site.toHost.bare base constants) :=
    Page.alike_fold (a := site) (b := site.toHost.bare) rfl
      (fun _ _ _ r => Coupling.alike_draw_equalWords _ _ r)
      (fun _ _ _ _ _ _ call => Coupling.alike_draw_equalWords _ _ _) constants
  exact ⟨_, hfold.run_eq (t := ⟨Cache.off, w.words⟩) rfl⟩

namespace Engine

theorem alike_build {c : Coupling (World σ) (World τ)}
    (hdraw : ∀ {α : Type} (r : Random α), c.Alike (World.draw r) (World.draw r)) (host : Host)
    (options : Options) (key source : Text) :
    c.Alike (build host options key source) (build host options key source) := by
  rw [build_eq, build_eq]
  cases draft? options key source with
  | none => exact .pure _
  | some t => exact (Static.alike_expand fun _ _ _ _ _ => hdraw _).bind fun html => .pure _

/-- A source is compiled in the same way whatever is stored. -/
theorem build_run (host : Host) (options : Options) (key source : Text) (w : World σ) :
    ∃ words, build host options key source w =
      ((build host options key source (⟨.off, w.words⟩ : World Cache)).1, { w with words }) := by
  have halike : (Coupling.equalWords w.source Cache.off).Alike (build host options key source)
      (build host options key source) :=
    alike_build (Coupling.alike_draw_equalWords _ _) host options key source
  exact ⟨_, halike.run_eq (t := ⟨Cache.off, w.words⟩) rfl⟩

theorem path_of_build {host : Host} {options : Options} {key source : Text} {t : Template}
    {w : World σ} (h : (build host options key source w).1 = .ok t) :
    t.path = key ∧ t.fingerprint = Sha256.fingerprint source := by
  rw [build_eq] at h
  cases hd : draft? options key source with
  | none =>
    rw [hd] at h
    cases h
  | some draft =>
    rw [hd] at h
    obtain ⟨n, -, rfl⟩ := Option.map_eq_some_iff.mp hd
    cases h
    exact ⟨rfl, rfl⟩

/-- A compiled template is from the source that its key tells. -/
theorem from_of_compileSource {e : Engine} {options : Options} {key : Text} {w : World σ}
    {t : Template} (h : (e.compileSource options key w).1 = .ok t) :
    t.path = key ∧ ∃ source, e.sources options.root (key ++ ['.'] ++ options.ext) = .ok source ∧
      t.From (e.host options) options key source.text := by
  unfold compileSource at h
  cases hs : e.sources options.root (key ++ ['.'] ++ options.ext) with
  | error err =>
    rw [hs] at h
    cases h
  | ok source =>
    rw [hs] at h
    obtain ⟨words, hrun⟩ := build_run (e.host options) options key source.text w
    have hmade := h
    dsimp only at hmade
    rw [hrun] at hmade
    exact ⟨(path_of_build h).1, source, rfl, .built w.words hmade⟩

variable [Storage σ]

/-- A template is folded in the same way whatever is stored. -/
theorem buildFolded_run (e : Engine) (options : Options) (base : Template) (constants : Scope)
    (w : World σ) : ∃ words, e.buildFolded options base constants w =
      (base.left (e.host options) constants w.words, { w with words }) := by
  obtain ⟨words, hrun⟩ := Page.fold_run (e.site options) base constants w
  refine ⟨words, ?_⟩
  simp only [buildFolded, bind, StateT.bind, hrun]
  rfl

end Engine

end Stencil
