import Stencil.Engine
import Stencil.Proofs.SideBySide

namespace Stencil

namespace TagFunction

/-- The case of letters in a tag does not count for the function it calls. -/
theorem name_lowerAscii (tag : Text) : name (Text.lowerAscii tag) = name tag := by
  have hunder : ∀ c : Char, (c.toLower == '_') = (c == '_') := by
    intro c
    by_cases h : c.isUpper
    · have hupper : c ≠ '_' := by
        rintro rfl
        exact absurd h (by decide)
      have hlower : c.toLower ≠ '_' := by
        intro he
        have halpha : c.isAlpha = '_'.isAlpha := by rw [← he, Char.isAlpha_toLower_eq_isAlpha]
        simp [Char.isAlpha, h] at halpha
      simp [hupper, hlower]
    · rw [Char.toLower_eq_of_not_isUpper h]
  simp only [name, Text.lowerAscii, List.dropWhile_map, List.map_map, Function.comp_def, hunder,
    Char.toLower_toLower_eq_toLower]

end TagFunction

theorem TagRole.eq_of_function {tag name : Text} (h : ofName tag = .function name) :
    name = Text.lowerAscii tag := by
  simp only [ofName] at h
  cases hs : Text.strip? ['_', ':'] tag with
  | some rest =>
    rw [hs] at h
    split_ifs at h
  | none =>
    rw [hs] at h
    split_ifs at h
    exact (TagRole.function.inj h).symm

theorem TagRole.eq_of_randomWord {tag : Text} (h : ofName tag = .randomWord) :
    Text.lowerAscii tag = "_rand".toList := by
  simp only [ofName] at h
  cases hs : Text.strip? ['_', ':'] tag with
  | some rest =>
    rw [hs] at h
    split_ifs at h
  | none =>
    rw [hs] at h
    split_ifs at h
    assumption

namespace Placeholder

/-- Is this a tag that makes a random choice, `_rand` or `_lorem`? -/
def IsRandom (p : Placeholder) : Prop :=
  TagRole.ofName p.name = .randomWord ∨ TagFunction.name p.name = "lorem".toList

/-- A text without a tag that makes a random choice. -/
def Calm (s : Text) : Prop := ∀ p : Placeholder, p.Occurs s → ¬p.IsRandom

/-- A text in which no name of such a tag can be. -/
def IsQuiet (s : Text) : Prop :=
  ¬"_rand".toList <:+: Text.lowerAscii s ∧ ¬"lorem".toList <:+: Text.lowerAscii s

instance (s : Text) : Decidable (IsQuiet s) := inferInstanceAs (Decidable (¬_ ∧ ¬_))

theorem Occurs.name_infix {p : Placeholder} {s : Text} (h : p.Occurs s) : p.name <:+: s := by
  obtain ⟨w, hw, hi⟩ := h
  refine List.IsInfix.trans ?_ hi
  cases hw with
  | @closer full _ hd =>
    obtain ⟨digits, rfl, -⟩ := eq_of_nameAndDepth? hd
    exact ⟨['<', '/'], ':' :: digits ++ ['>'], by simp⟩
  | @opener full index _ hd =>
    obtain ⟨digits, rfl, -⟩ := eq_of_nameAndDepth? hd
    exact ⟨['<'], ':' :: digits ++ index ++ endText p.kind, by simp⟩

theorem calm_of_isQuiet {s : Text} (h : IsQuiet s) : Calm s := fun p hp hr => by
  have hinfix : Text.lowerAscii p.name <:+: Text.lowerAscii s := hp.name_infix.map _
  rcases hr with hr | hr
  · have hname : Text.lowerAscii p.name = "_rand".toList := TagRole.eq_of_randomWord hr
    exact h.1 (hname ▸ hinfix)
  · have hsuffix : TagFunction.name p.name <:+ Text.lowerAscii p.name :=
      (List.dropWhile_suffix _).map _
    exact h.2 (hr ▸ hsuffix.isInfix.trans hinfix)

end Placeholder

/-- The functions of a host answer a call in one way only. -/
def Registry.Deterministic (r : Registry) : Prop :=
  ∀ name f, Dictionary.get? r name = some f → ∀ c, ∃ answer, f.call c = pure answer

theorem Registry.Deterministic.find? {r : Registry} (h : r.Deterministic) {tag : Text}
    {f : TagFunction} (hf : r.find? tag = some f) (hl : TagFunction.name tag ≠ "lorem".toList)
    (c : Call) : ∃ answer, f.call c = pure answer := by
  rcases Option.or_eq_some_iff.mp hf with hb | ⟨-, hg⟩
  · unfold TagFunction.builtin? at hb
    split at hb
    · cases hb
      exact ⟨_, rfl⟩
    · split at hb
      · cases hb
        exact ⟨_, rfl⟩
      · cases hb
  · exact h _ f hg c

namespace Coupling

variable {σ τ α : Type}

/-- The comparison of two worlds that do not change. -/
def still (s : World σ) (t : World τ) : Coupling (World σ) (World τ) where
  inStep s' t' := s' = s ∧ t' = t
  lost _ _ := False

theorem alike_still_draw {s : World σ} {t : World τ} {r : Random α} {a : α} (h : r = pure a) :
    (still s t).Alike (World.draw r) (World.draw r) := by
  rw [h, World.draw_pure, World.draw_pure]
  exact .pure (some a)

/-- What is alike in worlds that do not change leaves them as they are. -/
theorem Alike.still {m : StateM (World σ) α} {n : StateM (World τ) α} {s : World σ} {t : World τ}
    (h : (still s t).Alike m n) : m s = ((n t).1, s) ∧ (n t).2 = t := by
  obtain ⟨hr, hs, ht⟩ := (h.step s t ⟨rfl, rfl⟩).resolve_left id
  exact ⟨Prod.ext hr hs, ht⟩

end Coupling

namespace Page

variable {σ τ α : Type} {c : Coupling (World σ) (World τ)}

theorem alike_start {m : Rendering σ α} {n : Rendering τ α} (h : c.progress.Alike m n) :
    c.Alike (start m) (start n) where
  left s t hl := h.left ⟨.empty, [], s⟩ ⟨.empty, [], t⟩ hl
  right s t hl := h.right ⟨.empty, [], s⟩ ⟨.empty, [], t⟩ hl
  step s t hs := by
    rcases h.step ⟨.empty, [], s⟩ ⟨.empty, [], t⟩ ⟨rfl, rfl, hs⟩ with hl | ⟨hr, hf, ha, hw⟩
    · exact .inl hl
    · exact .inr ⟨Prod.ext hr (Prod.ext hf ha), hw⟩

/-- A template is rendered alike at two sites if loading and choosing at random is. -/
theorem alike_render {a : Site σ} {b : Site τ} (host : a.toHost = b.toHost)
    (hload : ∀ kind name, c.Alike (a.load kind name) (b.load kind name))
    (hdraw : ∀ {α : Type} (r : Random α), c.Alike (World.draw r) (World.draw r))
    (template : Template) (scope : Scope) :
    c.progress.Alike (Rendering.template (Frame.root a .late template) scope)
      (Rendering.template (Frame.root b .late template) scope) := by
  have hbeside : Rendering.Beside c (fun _ => True) (Frame.root a .late template)
      (Frame.root b .late template) :=
    { host, pass := rfl, template := rfl, body := rfl, mayImport := rfl
      part := fun _ _ => trivial, unfolded := fun _ _ => trivial
      late := fun _ => ⟨fun _ => trivial, hload⟩
      word := fun _ _ _ r => hdraw r, call := fun _ _ _ _ call => hdraw _ }
  exact Rendering.alike_template hbeside trivial scope

theorem alike_layout? {a : Site σ} {b : Site τ}
    (hload : ∀ kind name, c.Alike (a.load kind name) (b.load kind name)) (template : Template)
    (name : Option Text) : c.Alike (layout? a template name) (layout? b template name) := by
  unfold layout?
  split
  · exact .pure none
  · exact (hload .layout _).bind fun l => .pure _

/-- Pages of two sites are alike if loading and choosing at random is. -/
theorem alike_compile {a : Site σ} {b : Site τ} (host : a.toHost = b.toHost)
    (hload : ∀ kind name, c.Alike (a.load kind name) (b.load kind name))
    (hdraw : ∀ {α : Type} (r : Random α), c.Alike (World.draw r) (World.draw r))
    (template : Template) (scope : Scope) (layout : Option Text) :
    c.Alike (compile a template scope layout) (compile b template scope layout) := by
  have hrender := fun t => alike_render host hload hdraw t scope
  refine (alike_layout? hload template layout).bind fun l => ?_
  refine (alike_start ((hrender template).bind fun page => ?_)).bind fun out => ?_
  · exact (Coupling.Alike.mapOption l fun l _ => hrender l).bind fun layout => .pure _
  · obtain ⟨⟨page, layout⟩, fragments, _⟩ := out
    have : finish a scope fragments page layout = finish b scope fragments page layout := by
      simp only [finish, show a.assets = b.assets by rw [host]]
    dsimp only
    rw [this]
    exact .pure _

/-- What is left of a template is alike if the choices of its own tags are. -/
theorem alike_fold {a : Site σ} {b : Site τ} (host : a.toHost = b.toHost) {template : Template}
    (hword : ∀ p : Placeholder, p.Occurs template.html → TagRole.ofName p.name = .randomWord →
      ∀ r : Random Text, c.Alike (World.draw r) (World.draw r))
    (hcall : ∀ (p : Placeholder) (name : Text) (f : TagFunction), p.Occurs template.html →
      TagRole.ofName p.name = .function name → a.functions.find? name = some f →
        ∀ call : Call, c.Alike (World.draw (f.call call)) (World.draw (f.call call)))
    (constants : Scope) : c.Alike (fold a template constants) (fold b template constants) := by
  have hbeside : Rendering.Beside c
      (fun s => ∀ p : Placeholder, p.Occurs s → p.Occurs template.html)
      (Frame.root a (.early template.attrs.length) template)
      (Frame.root b (.early template.attrs.length) template) :=
    { host, pass := rfl, template := rfl, body := rfl, mayImport := rfl
      part := fun h ht p hp => h p (hp.of_infix ht)
      unfolded := fun l h p hp => h p (Loop.occurs_of_expand hp)
      late := fun h => absurd h (by simp [Frame.root, Pass.isEarly])
      word := fun h hp hr => hword _ (h _ hp) hr
      call := fun h hp hr hfind => hcall _ _ _ (h _ hp) hr hfind }
  exact (alike_start (Rendering.alike_template hbeside (fun p hp => hp) constants)).bind
    fun out => .pure _

/-- A template without random choices is folded alike in worlds that do not change. -/
theorem alike_fold_still {a : Site σ} {b : Site τ} (host : a.toHost = b.toHost)
    (hf : a.functions.Deterministic) {template : Template} (hc : Placeholder.Calm template.html)
    (constants : Scope) (s : World σ) (t : World τ) :
    (Coupling.still s t).Alike (fold a template constants) (fold b template constants) := by
  refine alike_fold host (fun p hp hr => absurd (.inl hr) (hc p hp))
    (fun p name f hp hr hfind call => ?_) constants
  obtain rfl := TagRole.eq_of_function hr
  have hl := fun he => hc p hp (.inr ((TagFunction.name_lowerAscii _).symm.trans he))
  obtain ⟨answer, ha⟩ := hf.find? hfind hl call
  exact Coupling.alike_still_draw ha

end Page

namespace Static

variable {σ τ : Type} {c : Coupling (World σ) (World τ)} {host : Host} {attrs : List Attributes}
  {literals : LiteralTable} {s : Text}

theorem expand_of_none (h : Placeholder.next? s = none) :
    (expand host attrs literals s : StateM (World σ) Text) = pure s := by
  rw [expand]
  split
  next => rfl
  next hf =>
    rw [h] at hf
    simp at hf

/-- The text with a tag kept as it is. -/
def kept (host : Host) (attrs : List Attributes) (literals : LiteralTable)
    (f : Placeholder.Found) : StateM (World σ) Text := do
  return f.before ++ f.source ++ (← expand host attrs literals f.after)

theorem expand_of_some {f : Placeholder.Found} (h : Placeholder.next? s = some f) :
    (expand host attrs literals s : StateM (World σ) Text) =
      match function? host.functions f.placeholder with
      | none => kept host attrs literals f
      | some fn =>
        match extent? f.placeholder f.after with
        | none => kept host attrs literals f
        | some (content, rest) => (do
          match ← answer fn (call host attrs literals f.placeholder content) with
          | some out =>
            return f.before ++ Marker.encode out ++ (← expand host attrs literals rest)
          | none => kept host attrs literals f) := by
  rw [expand]
  split
  next hn =>
    rw [h] at hn
    simp at hn
  next g hg =>
    cases Option.some.inj (h.symm.trans hg)
    cases function? host.functions f.placeholder with
    | none => rfl
    | some fn =>
      dsimp only
      split
      next he => rw [he]; rfl
      next he => rw [he]; rfl

theorem infix_extent? {p : Placeholder} {after rest : Text} {content : Option Text}
    (h : extent? p after = some (content, rest)) : rest <:+: after := by
  unfold extent? at h
  split at h
  · cases Option.some.inj h
    exact List.infix_rfl
  · obtain ⟨⟨inside, r⟩, hc, he⟩ := Option.map_eq_some_iff.mp h
    cases he
    exact ⟨inside ++ Placeholder.closer p.name p.depth, [], by
      rw [List.append_nil, ← Text.eq_of_cut? hc]⟩

/-- The calls before any data are alike if the answers of the functions are. -/
theorem alike_expand (h : ∀ p f, p.Occurs s → function? host.functions p = some f →
      ∀ call : Call, c.Alike (World.draw (f.call call)) (World.draw (f.call call))) :
    c.Alike (expand host attrs literals s) (expand host attrs literals s) := by
  induction hn : s.length using Nat.strongRecOn generalizing s with
  | ind n ih =>
    cases hf : Placeholder.next? s with
    | none =>
      rw [expand_of_none hf, expand_of_none hf]
      exact .pure s
    | some f =>
      have hlength := Placeholder.length_of_next? hf
      have hafter := Placeholder.infix_after hf
      have hkept : c.Alike (kept host attrs literals f) (kept host attrs literals f) :=
        (ih f.after.length (hn ▸ hlength) (fun p g hp => h p g (hp.of_infix hafter)) rfl).bind
          fun rest => .pure _
      rw [expand_of_some hf, expand_of_some hf]
      cases hfun : function? host.functions f.placeholder with
      | none => exact hkept
      | some function =>
        dsimp only
        cases he : extent? f.placeholder f.after with
        | none => exact hkept
        | some extent =>
          obtain ⟨content, rest⟩ := extent
          have hrest := length_of_extent? he
          have hinfix : rest <:+: s := (infix_extent? he).trans hafter
          dsimp only
          refine Coupling.Alike.bind ?_ fun out => ?_
          · unfold answer
            split
            · exact (h _ _ (Placeholder.occurs_of_next? hf) hfun _).bind fun out => .pure out.join
            · exact .pure none
          · cases out with
            | none => exact hkept
            | some out =>
              exact (ih rest.length (by omega) (fun p g hp => h p g (hp.of_infix hinfix)) rfl).bind
                fun rest => .pure _

end Static

namespace Engine

variable {σ τ : Type} {c : Coupling (World σ) (World τ)}

/-- A source in its compiled form, before any of its functions is called. -/
def draft? (options : Options) (key source : Text) : Option Template :=
  let (text, literals) := LiteralTable.extract (Marker.encode source)
  let (text, blocks) := Block.sink literals text
  (Normalized.ofText? literals text).map fun normalized =>
    let html := Hole.preserve literals normalized.html
    let html := if options.markdown then Markdown.render html else html
    ⟨key, literals.requote html, normalized.attrs, literals, blocks, Sha256.fingerprint source⟩

theorem build_eq (host : Host) (options : Options) (key source : Text) :
    (build host options key source : StateM (World σ) (Except Error Template)) =
      match draft? options key source with
      | none => pure (.error .unclosedReference)
      | some t => do
        return .ok { t with html := ← Static.expand host t.attrs t.literals t.html } := by
  unfold build draft?
  dsimp only
  cases Normalized.ofText? _ _ <;> rfl

theorem alike_compileSource (e : Engine) (options : Options) (key : Text)
    (h : ∀ source t, e.sources options.root (key ++ ['.'] ++ options.ext) = .ok source →
      draft? options key source.text = some t → ∀ p f, p.Occurs t.html →
        Static.function? e.functions p = some f →
          ∀ call : Call, c.Alike (World.draw (f.call call)) (World.draw (f.call call))) :
    c.Alike (e.compileSource options key) (e.compileSource options key) := by
  unfold compileSource
  cases hs : e.sources options.root (key ++ ['.'] ++ options.ext) with
  | error err => exact .pure _
  | ok source =>
    dsimp only
    rw [build_eq, build_eq]
    cases hd : draft? options key source.text with
    | none => exact .pure _
    | some t => exact (Static.alike_expand (h source t hs hd)).bind fun html => .pure _

/-- The world in which a record is made when nothing is cached and nothing is left to chance. -/
def nowhere : World Cache := ⟨.off, []⟩

/-- What the source of a template is compiled to. -/
def built (e : Engine) (options : Options) (key : Text) : Except Error Template :=
  (e.compileSource options key nowhere).1

/-- What is left of a template when it is folded. -/
def leftover (e : Engine) (options : Options) (template : Template) (constants : Scope) :
    Template :=
  (e.buildFolded options template constants nowhere).1

/-- The template with a key makes no random choice, neither while it is compiled nor when it is
folded: none of the tags that its source is read as and none of those that it is compiled to is
`_rand` or `_lorem`. -/
structure Calm (e : Engine) (options : Options) (key : Text) : Prop where
  source : ∀ source t, e.sources options.root (key ++ ['.'] ++ options.ext) = .ok source →
    draft? options key source.text = some t → Placeholder.Calm t.html
  record : ∀ t, e.built options key = .ok t → Placeholder.Calm t.html

variable {e : Engine} {options : Options} {key : Text} {template : Template}

/-- A template is calm if no name of a tag that makes a random choice is in it. -/
theorem calm_of_isQuiet
    (hsource : ∀ source, e.sources options.root (key ++ ['.'] ++ options.ext) = .ok source →
      ∀ t ∈ draft? options key source.text, Placeholder.IsQuiet t.html)
    (hrecord : ∀ t ∈ (e.built options key).toOption, Placeholder.IsQuiet t.html) :
    e.Calm options key where
  source source t hs ht := Placeholder.calm_of_isQuiet (hsource source hs t ht)
  record t ht := Placeholder.calm_of_isQuiet (hrecord t (by rw [ht]; rfl))

theorem alike_compileSource_still (hf : e.functions.Deterministic) (hc : e.Calm options key)
    (s : World σ) (t : World τ) :
    (Coupling.still s t).Alike (e.compileSource options key) (e.compileSource options key) := by
  refine alike_compileSource e options key fun source t hs hd p f hp hfun call => ?_
  have hl := fun he => hc.source source t hs hd p hp (.inr he)
  unfold Static.function? at hfun
  split at hfun
  · cases hfun
  · obtain ⟨hfind, -⟩ := Option.filter_eq_some_iff.mp hfun
    obtain ⟨answer, ha⟩ := hf.find? hfind hl call
    exact Coupling.alike_still_draw ha

/-- A template that is calm is compiled in one way. -/
theorem compileSource_eq (hf : e.functions.Deterministic) (hc : e.Calm options key)
    (w : World σ) : e.compileSource options key w = (e.built options key, w) :=
  (alike_compileSource_still hf hc w nowhere).still.1

/-- A template is kept under the key that it was asked for with, and its fingerprint is that of its
source. -/
theorem exists_source_of_built (h : e.built options key = .ok template) :
    ∃ source, e.sources options.root (key ++ ['.'] ++ options.ext) = .ok source ∧
      template.path = key ∧ template.fingerprint = Sha256.fingerprint source.text := by
  unfold built compileSource at h
  cases hs : e.sources options.root (key ++ ['.'] ++ options.ext) with
  | error err =>
    rw [hs] at h
    cases h
  | ok source =>
    rw [hs] at h
    dsimp only at h
    rw [build_eq] at h
    cases hd : draft? options key source.text with
    | none =>
      rw [hd] at h
      cases h
    | some t =>
      rw [hd] at h
      have hdraft : t.path = key ∧ t.fingerprint = Sha256.fingerprint source.text := by
        obtain ⟨n, _, rfl⟩ := Option.map_eq_some_iff.mp hd
        exact ⟨rfl, rfl⟩
      cases h
      exact ⟨source, rfl, hdraft⟩

theorem path_of_built (h : e.built options key = .ok template) : template.path = key := by
  obtain ⟨-, -, hpath, -⟩ := exists_source_of_built h
  exact hpath

variable [Storage σ]

theorem alike_buildFolded [Storage τ] (e : Engine) (options : Options) (template : Template)
    (constants : Scope)
    (hdraw : ∀ {α : Type} (r : Random α), c.Alike (World.draw r) (World.draw r)) :
    c.Alike (e.buildFolded options template constants)
      (e.buildFolded options template constants) :=
  (Page.alike_fold (a := (e.site options : Site σ)) (b := (e.site options : Site τ)) rfl
    (fun _ _ _ r => hdraw r) (fun _ _ _ _ _ _ _ => hdraw _) constants).bind fun _ => .pure _

/-- A template that is calm is folded in one way. -/
theorem buildFolded_eq (hf : e.functions.Deterministic) (hc : Placeholder.Calm template.html)
    (constants : Scope) (w : World σ) :
    e.buildFolded options template constants w =
      (e.leftover options template constants, w) := by
  have hfold := Page.alike_fold_still (a := (e.site options : Site σ))
    (b := (e.site options : Site Cache)) rfl hf hc constants w nowhere
  have hmade : (Coupling.still w nowhere).Alike (e.buildFolded options template constants)
      (e.buildFolded options template constants) := hfold.bind fun out => .pure _
  exact hmade.still.1

end Engine

end Stencil
